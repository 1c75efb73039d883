import NaturalDeduction.Json.Decoder
import NaturalDeduction.Sequent

/-! # Formulas and sequents in JSON

    Records are written as objects with their fields in a fixed order, and
    alternatives as objects with one member, whose name tells them apart.
-/

namespace NaturalDeduction

open Json (Decoder fields?)

/-! ### Symbols and operators -/

/-- The word for a kind of symbol. -/
def SymbolKind.word : SymbolKind → String
  | .schema => "Schema"
  | .proposition => "Proposition"

/-- The word for a fixity. -/
def Fixity.word : Fixity → String
  | .prefixed => "Prefix"
  | .postfixed => "Postfix"
  | .infixed => "Infix"

/-- A symbol as an object of name and kind. -/
def Symbol.toJson (s : Symbol) : Json :=
  .object [("name", .string s.name), ("kind", .string s.kind.word)]

/-- Reads a symbol. -/
def Symbol.ofJson? : Decoder Symbol := fun v =>
  match fields? ["name", "kind"] v with
  | some [name, kind] => do
    let name ← Decoder.text.required name
    let kind ← (Decoder.word SymbolKind.word [.schema, .proposition]).required kind
    return ⟨name, kind⟩
  | _ => none

/-- An operator as an object of name and fixity. -/
def Operator.toJson (op : Operator) : Json :=
  .object [("name", .string op.name), ("fixity", .string op.fixity.word)]

/-- Reads an operator. -/
def Operator.ofJson? : Decoder Operator := fun v =>
  match fields? ["name", "fixity"] v with
  | some [name, fixity] => do
    let name ← Decoder.text.required name
    let fixity ← (Decoder.word Fixity.word [.prefixed, .postfixed, .infixed]).required fixity
    return ⟨name, fixity⟩
  | _ => none

/-! ### Formulas -/

mutual
/-- A formula under the name of its shape. -/
def Formula.toJson : Formula → Json
  | .atom s => .object [("Atomic", s.toJson)]
  | .app op fs => .object [("Structured", .array [op.toJson, .array (Formula.toJsonAll fs)])]

/-- The formulas of a list, one by one. -/
def Formula.toJsonAll : List Formula → List Json
  | [] => []
  | f :: fs => f.toJson :: Formula.toJsonAll fs
end

mutual
/-- Reads a formula. -/
def Formula.ofJson? : Decoder Formula
  | .object [("Atomic", v)] => (Symbol.ofJson? v).map .atom
  | .object [("Structured", .array [op, .array fs])] => do
    let op ← Operator.ofJson? op
    let fs ← Formula.ofJsonAll? fs
    return .app op fs
  | _ => none

/-- Reads the formulas of a list, one by one. -/
def Formula.ofJsonAll? : List Json → Option (List Formula)
  | [] => some []
  | v :: vs => do
    let f ← Formula.ofJson? v
    let fs ← Formula.ofJsonAll? vs
    return f :: fs
end

/-! ### Sequents -/

mutual
/-- A form under the name of its shape. -/
def Form.toJson : Form → Json
  | .formula f => .object [("Formula", f.toJson)]
  | .sequent ps cs =>
    .object [("Sequent", .object
      [("premises", .object [("forms", .array (Form.toJsonAll ps))]),
        ("conclusions", .array (Formula.toJsonAll cs))])]

/-- The forms of a list, one by one. -/
def Form.toJsonAll : List Form → List Json
  | [] => []
  | p :: ps => p.toJson :: Form.toJsonAll ps
end

/-- Premises as an object whose only field lists them. -/
def Form.listToJson (ps : List Form) : Json := .object [("forms", .array (Form.toJsonAll ps))]

/-- A sequent as an object of premises and conclusions. -/
def Sequent.toJson (s : Sequent) : Json :=
  .object [("premises", Form.listToJson s.premises),
    ("conclusions", .array (Formula.toJsonAll s.conclusions))]

/-- The premises that an object lists. -/
def Form.itemsOfJson? (v : Json) : Option (List Json) :=
  match fields? ["forms"] v with
  | some [some (.array forms)] => some forms
  | _ => none

/-- The two sides of a sequent: the premises as they are listed, and the conclusions. -/
def Sequent.sidesOfJson? (v : Json) : Option (List Json × Json) :=
  match fields? ["premises", "conclusions"] v with
  | some [some ps, some cs] => (Form.itemsOfJson? ps).map (·, cs)
  | _ => none

/-- Premises are smaller than the sequent, so that they can be read one level down. -/
theorem Sequent.sizeOf_lt_of_sidesOfJson? {v p : Json} {ps : List Json} {cs : Json}
    (h : Sequent.sidesOfJson? v = some (ps, cs)) (hp : p ∈ ps) : sizeOf p < sizeOf v := by
  unfold Sequent.sidesOfJson? at h
  split at h
  · next premises conclusions hsides =>
    obtain ⟨forms, hforms, hresult⟩ := Option.map_eq_some_iff.mp h
    cases hresult
    have hpremises := Json.sizeOf_lt_of_fields? hsides List.mem_cons_self
    unfold Form.itemsOfJson? at hforms
    split at hforms
    · next items hitems =>
      cases hforms
      have harray := Json.sizeOf_lt_of_fields? hitems List.mem_cons_self
      have hitem := List.sizeOf_lt_of_mem hp
      rw [Json.array.sizeOf_spec] at harray
      omega
    · cases hforms
  · cases h

/-- Reads a form. -/
def Form.ofJson? : Decoder Form
  | .object [("Formula", v)] => (Formula.ofJson? v).map .formula
  | .object [("Sequent", v)] =>
    -- a sequent is an object or an array, and so are its premises: that the parts are smaller
    -- cannot be seen from a pattern
    match h : Sequent.sidesOfJson? v with
    | some (ps, cs) => do
      let ps ← ps.attach.mapM fun ⟨p, hp⟩ =>
        have := Sequent.sizeOf_lt_of_sidesOfJson? h hp
        Form.ofJson? p
      let cs ← Decoder.list Formula.ofJson? cs
      return .sequent ps cs
    | none => none
  | _ => none
termination_by v => sizeOf v
decreasing_by
  simp only [Json.object.sizeOf_spec, List.cons.sizeOf_spec, Prod.mk.sizeOf_spec]
  omega

/-- Reads the object that lists premises. -/
def Form.listOfJson? : Decoder (List Form) := fun v => do (← Form.itemsOfJson? v).mapM Form.ofJson?

/-- Reads a sequent. -/
def Sequent.ofJson? : Decoder Sequent := fun v =>
  match Sequent.sidesOfJson? v with
  | some (ps, cs) => do
    let ps ← ps.mapM Form.ofJson?
    let cs ← Decoder.list Formula.ofJson? cs
    return ⟨ps, cs⟩
  | none => none

end NaturalDeduction
