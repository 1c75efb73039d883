/-! # JSON values

    Values as they are written: members of an object keep their order, and a
    name may be repeated. Numbers are told apart by how they are written, since
    only a plain sequence of digits stands for a natural number here.
-/

namespace NaturalDeduction

/-- A JSON value. -/
inductive Json where
  | null
  | bool (value : Bool)
  /-- A number written as digits only. -/
  | natural (value : Nat)
  /-- A number with a sign, a fraction or an exponent, as it is written. -/
  | number (literal : String)
  | string (text : String)
  | array (items : List Json)
  | object (members : List (String × Json))
  /-- A part of a text that is well-formed and can be passed over, but not read: a string or the
      name of a member in which half of a surrogate pair is escaped, so that there is no text that it
      stands for, or brackets that are nested too deep. -/
  | unread
deriving Inhabited, Repr

end NaturalDeduction
