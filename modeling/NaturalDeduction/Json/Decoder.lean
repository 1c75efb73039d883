import NaturalDeduction.Json.Parser

/-! # Decoders

    A decoder says what a JSON value stands for, if it stands for anything.
    Members that a decoder does not ask for are never looked into, so it does
    not matter if they are left unread.
-/

namespace NaturalDeduction.Json

/-- What a value stands for, if it stands for anything. -/
abbrev Decoder (α : Type) := Json → Option α

/-- One more than the largest number that can be read. -/
def numberBound : Nat := Nat.pow 2 64

namespace Decoder

variable {α : Type}

/-- What a text stands for. -/
def run (decode : Decoder α) (text : String) : Option α := (read? text).bind decode

/-- A string. -/
def text : Decoder String
  | .string s => some s
  | _ => none

/-- A number below the bound. -/
def natural : Decoder Nat
  | .natural n => if n < numberBound then some n else none
  | _ => none

/-- A truth value. -/
def bool : Decoder Bool
  | .bool b => some b
  | _ => none

/-- One of `values`, written as its word, or as an object with this word before `null`. -/
def word (name : α → String) (values : List α) : Decoder α
  | .string s => values.find? fun x => name x == s
  | .object [(s, .null)] => values.find? fun x => name x == s
  | _ => none

/-- The items of an array. -/
def list (item : Decoder α) : Decoder (List α)
  | .array vs => vs.mapM item
  | _ => none

/-- A field that has to be there. -/
def required (decode : Decoder α) : Option Json → Option α
  | some v => decode v
  | none => none

/-- A field that may be left out. -/
def optional (decode : Decoder α) (default : α) : Option Json → Option α
  | some v => decode v
  | none => some default

end Decoder

/-- The value of a field of an object, if there is one; a field must not be repeated. -/
def field? (members : List (String × Json)) (name : String) : Option (Option Json) :=
  match members.filter fun m => m.1 == name with
  | [] => some none
  | [(_, v)] => some (some v)
  | _ => none

/-- The values of the fields of a record. It is written as an object, where other fields do not
    matter, or as an array of the first fields in order. -/
def fields? (names : List String) : Json → Option (List (Option Json))
  | .object members => names.mapM (field? members)
  | .array vs =>
    if vs.length ≤ names.length then
      some (vs.map some ++ List.replicate (names.length - vs.length) none)
    else none
  | _ => none

theorem mem_of_field? {members : List (String × Json)} {name : String} {v : Json}
    (h : field? members name = some (some v)) : ∃ m ∈ members, m.2 = v := by
  unfold field? at h
  split at h
  · cases h
  · next name' v' hfilter =>
    cases h
    have hmem : (name', v) ∈ members.filter fun m => m.1 == name := by
      rw [hfilter]
      exact List.mem_cons_self
    exact ⟨(name', v), (List.mem_filter.mp hmem).1, rfl⟩
  · cases h

theorem mem_of_mapM_field? {members : List (String × Json)} {names : List String}
    {values : List (Option Json)} {v : Json} (h : names.mapM (field? members) = some values)
    (hv : some v ∈ values) : ∃ m ∈ members, m.2 = v := by
  induction names generalizing values with
  | nil =>
    cases h
    cases hv
  | cons name names ih =>
    rw [List.mapM_cons] at h
    obtain ⟨first, hfirst, hnext⟩ := Option.bind_eq_some_iff.mp h
    obtain ⟨rest, hrest, hresult⟩ := Option.bind_eq_some_iff.mp hnext
    cases hresult
    rcases List.mem_cons.mp hv with hhead | htail
    · exact mem_of_field? (hhead ▸ hfirst)
    · exact ih hrest htail

/-- A field is smaller than its record. -/
theorem sizeOf_lt_of_fields? {names : List String} {v w : Json} {values : List (Option Json)}
    (h : fields? names v = some values) (hw : some w ∈ values) : sizeOf w < sizeOf v := by
  unfold fields? at h
  split at h
  · next members =>
    obtain ⟨⟨name, _⟩, hm, rfl⟩ := mem_of_mapM_field? h hw
    have hmember := List.sizeOf_lt_of_mem hm
    rw [Prod.mk.sizeOf_spec] at hmember
    rw [object.sizeOf_spec]
    dsimp only
    omega
  · next items =>
    split at h
    · cases h
      have hitem : w ∈ items := by simpa [List.mem_append, List.mem_replicate] using hw
      have hsize := List.sizeOf_lt_of_mem hitem
      rw [array.sizeOf_spec]
      omega
    · cases h
  · cases h

end NaturalDeduction.Json
