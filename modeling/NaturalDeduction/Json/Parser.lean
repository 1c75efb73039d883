import NaturalDeduction.Json.Basic
import NaturalDeduction.Source

/-! # Reading JSON

    The reader is strict: no comma after the last member, no leading zeros, no
    raw control characters in strings, only blanks after the value. It works on
    the list of characters still to be read. The bound on nesting and on the
    number of members is the length of the text, and so is never reached.

    Of a value that is well-formed, only so much is read as brackets are nested
    less deep than a limit. What is nested deeper can only be passed over.
-/

namespace NaturalDeduction.Json

/-- The text without leading blanks. -/
def skipBlanks (cs : List Char) : List Char := cs.dropWhile isBlank

/-! ### Strings -/

/-- A part of a string literal: a character, or the escape of a unit of UTF-16. -/
inductive Piece where
  | char (c : Char)
  | unit (n : Nat)

/-- The value of a hexadecimal digit. -/
def hexDigit? (c : Char) : Option Nat :=
  if '0' ≤ c ∧ c ≤ '9' then some (c.toNat - '0'.toNat)
  else if 'a' ≤ c ∧ c ≤ 'f' then some (c.toNat - 'a'.toNat + 10)
  else if 'A' ≤ c ∧ c ≤ 'F' then some (c.toNat - 'A'.toNat + 10)
  else none

/-- The value of four hexadecimal digits. -/
def hexUnit? (a b c d : Char) : Option Nat := do
  return ((← hexDigit? a) * 16 + (← hexDigit? b)) * 256 + (← hexDigit? c) * 16 + (← hexDigit? d)

/-- The character that a letter after a backslash stands for. -/
def escaped? (c : Char) : Option Char :=
  if c = '"' ∨ c = '\\' ∨ c = '/' then some c
  else if c = 'b' then some '\x08'
  else if c = 'f' then some '\x0c'
  else if c = 'n' then some '\n'
  else if c = 'r' then some '\r'
  else if c = 't' then some '\t'
  else none

/-- The parts of a string literal up to its closing quote. -/
def pieces? : List Char → Option (List Piece × List Char)
  | [] => none
  | '"' :: rest => some ([], rest)
  | '\\' :: 'u' :: a :: b :: c :: d :: rest =>
    match hexUnit? a b c d, pieces? rest with
    | some n, some (ps, rest') => some (.unit n :: ps, rest')
    | _, _ => none
  | '\\' :: c :: rest =>
    match escaped? c, pieces? rest with
    | some e, some (ps, rest') => some (.char e :: ps, rest')
    | _, _ => none
  | c :: rest =>
    if c.toNat < 0x20 then none
    else
      match pieces? rest with
      | some (ps, rest') => some (.char c :: ps, rest')
      | none => none

/-- The first unit of a surrogate pair. -/
def isHighSurrogate (n : Nat) : Bool := 0xD800 ≤ n && n < 0xDC00

/-- The second unit of a surrogate pair. -/
def isLowSurrogate (n : Nat) : Bool := 0xDC00 ≤ n && n < 0xE000

/-- The characters of a literal, if its surrogates come in pairs. -/
def joinPieces? : List Piece → Option (List Char)
  | [] => some []
  | .char c :: ps => (joinPieces? ps).map (c :: ·)
  | .unit n :: ps =>
    if isHighSurrogate n then
      match ps with
      | .unit m :: ps' =>
        if isLowSurrogate m then
          (joinPieces? ps').map (Char.ofNat (0x10000 + (n - 0xD800) * 0x400 + (m - 0xDC00)) :: ·)
        else none
      | _ => none
    else if isLowSurrogate n then none
    else (joinPieces? ps).map (Char.ofNat n :: ·)

/-- A string literal after its opening quote, with its text if it stands for one. -/
def string? (cs : List Char) : Option (Option String × List Char) :=
  match pieces? cs with
  | some (ps, rest) => some ((joinPieces? ps).map String.ofList, rest)
  | none => none

/-! ### Numbers -/

/-- The digits at the start of a text, of which there must be some. -/
def digits? (cs : List Char) : Option (List Char × List Char) :=
  let run := cs.takeWhile Char.isDigit
  if run.isEmpty then none else some (run, cs.dropWhile Char.isDigit)

/-- The fraction of a number, if there is one. -/
def fraction? : List Char → Option (List Char × List Char)
  | '.' :: rest => (digits? rest).map fun (ds, rest') => ('.' :: ds, rest')
  | cs => some ([], cs)

/-- The exponent of a number, if there is one. -/
def exponent? : List Char → Option (List Char × List Char)
  | e :: rest =>
    if e = 'e' ∨ e = 'E' then
      match rest with
      | sign :: rest' =>
        if sign = '+' ∨ sign = '-' then
          (digits? rest').map fun (ds, rest'') => (e :: sign :: ds, rest'')
        else (digits? rest).map fun (ds, rest'') => (e :: ds, rest'')
      | [] => none
    else some ([], e :: rest)
  | [] => some ([], [])

/-- A number without its sign: the digits before the point, and all that follows them. -/
def unsigned? (cs : List Char) : Option ((List Char × List Char) × List Char) := do
  let (whole, rest) ← digits? cs
  if whole.head? = some '0' ∧ whole ≠ ['0'] then none
  else
    let (fraction, rest') ← fraction? rest
    let (exponent, rest'') ← exponent? rest'
    return ((whole, fraction ++ exponent), rest'')

/-- The value of a sequence of digits. -/
def digitsValue (ds : List Char) : Nat := ds.foldl (fun n c => n * 10 + (c.toNat - '0'.toNat)) 0

/-- A number. -/
def number? : List Char → Option (Json × List Char)
  | '-' :: cs => (unsigned? cs).map fun ((whole, more), rest) =>
      (.number (String.ofList ('-' :: whole ++ more)), rest)
  | cs => (unsigned? cs).map fun ((whole, more), rest) =>
      (if more.isEmpty then .natural (digitsValue whole)
        else .number (String.ofList (whole ++ more)), rest)

/-! ### Values -/

/-- At most `bound` members with commas between them, up to a closing character. -/
def members? {α : Type} (member : List Char → Option (α × List Char)) (closer : Char) :
    (bound : Nat) → List Char → Option (List α × List Char)
  | 0, _ => none
  | bound + 1, cs =>
    match member cs with
    | none => none
    | some (x, rest) =>
      match skipBlanks rest with
      | [] => none
      | c :: rest' =>
        if c = closer then some ([x], rest')
        else if c = ',' then
          (members? member closer bound rest').map fun (xs, rest'') => (x :: xs, rest'')
        else none

/-- All members up to a closing character, of which there may be none. -/
def block? {α : Type} (member : List Char → Option (α × List Char)) (closer : Char)
    (bound : Nat) (cs : List Char) : Option (List α × List Char) :=
  match skipBlanks cs with
  | [] => none
  | c :: rest => if c = closer then some ([], rest) else members? member closer bound (c :: rest)

/-- A name, a colon and a value. The name may stand for no text. -/
def pair? (value : List Char → Option (Json × List Char)) (cs : List Char) :
    Option ((Option String × Json) × List Char) :=
  match skipBlanks cs with
  | '"' :: rest =>
    match string? rest with
    | none => none
    | some (name, rest') =>
      match skipBlanks rest' with
      | ':' :: rest'' => (value rest'').map fun (v, rest''') => ((name, v), rest''')
      | _ => none
  | _ => none

/-- An object, if all names stand for texts. -/
def ofPairs (pairs : List (Option String × Json)) : Json :=
  match pairs.mapM fun (name, v) => name.map (·, v) with
  | some members => .object members
  | none => .unread

/-- A value nested at most `depth` times. -/
def value? : (depth : Nat) → List Char → Option (Json × List Char)
  | 0, _ => none
  | depth + 1, cs =>
    match skipBlanks cs with
    | 'n' :: 'u' :: 'l' :: 'l' :: rest => some (.null, rest)
    | 't' :: 'r' :: 'u' :: 'e' :: rest => some (.bool true, rest)
    | 'f' :: 'a' :: 'l' :: 's' :: 'e' :: rest => some (.bool false, rest)
    | '"' :: rest =>
      (string? rest).map fun (text, rest') =>
        (match text with | some t => .string t | none => .unread, rest')
    | '[' :: rest =>
      (block? (value? depth) ']' depth rest).map fun (items, rest') => (.array items, rest')
    | '\x7b' :: rest =>
      (block? (pair? (value? depth)) '\x7d' depth rest).map fun (pairs, rest') =>
        (ofPairs pairs, rest')
    | cs' => number? cs'

/-- The value that a text is written for. -/
def parse? (text : String) : Option Json :=
  let cs := text.toList
  match value? (cs.length + 1) cs with
  | some (v, rest) => if (skipBlanks rest).isEmpty then some v else none
  | none => none

/-! ### Nesting -/

mutual
/-- The value with its brackets left unread where they are nested deeper than `room`. -/
def prune : Json → (room : Nat) → Json
  | .array _, 0 => .unread
  | .array items, room + 1 => .array (pruneItems items room)
  | .object _, 0 => .unread
  | .object members, room + 1 => .object (pruneMembers members room)
  | v, _ => v

/-- The items of an array, pruned one by one. -/
def pruneItems : List Json → (room : Nat) → List Json
  | [], _ => []
  | v :: vs, room => v.prune room :: pruneItems vs room

/-- The members of an object, pruned one by one. -/
def pruneMembers : List (String × Json) → (room : Nat) → List (String × Json)
  | [], _ => []
  | (name, v) :: ms, room => (name, v.prune room) :: pruneMembers ms room
end

/-- How deep brackets may be nested in what is read. -/
def nestingLimit : Nat := 127

/-- The value that a text is written for, as far as it is read. The whole text must be well-formed. -/
def read? (text : String) : Option Json := (parse? text).map (·.prune nestingLimit)

end NaturalDeduction.Json
