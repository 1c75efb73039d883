import NaturalDeduction.Derivation.Step
import NaturalDeduction.Json.Formula

/-! # Substitutions and steps in JSON -/

namespace NaturalDeduction

open Json (Decoder fields?)

/-- A substitution as an object whose only field holds the entries in binding order. -/
def Substitution.toJson (σ : Substitution) : Json :=
  .object [("map", .object (σ.entries.map fun (name, f) => (name, f.toJson)))]

/-- Reads the entries of a substitution. Of a repeated name the last formula counts. -/
def Substitution.entriesOfJson? : Decoder Substitution
  | .object members => do
    let entries ← members.mapM fun (name, v) => (Formula.ofJson? v).map (name, ·)
    return .ofList entries
  | _ => none

/-- Reads a substitution. -/
def Substitution.ofJson? : Decoder Substitution := fun v =>
  match fields? ["map"] v with
  | some [entries] => Decoder.required Substitution.entriesOfJson? entries
  | _ => none

/-- A citation under the name of its kind. -/
def Citation.toJson : Citation → Json
  | .step n => .object [("Step", .natural n)]
  | .subproof a b => .object [("SubProof", .array [.natural a, .natural b])]

/-- Reads a citation. -/
def Citation.ofJson? : Decoder Citation
  | .object [("Step", v)] => (Decoder.natural v).map .step
  | .object [("SubProof", .array [a, b])] => do
    let a ← Decoder.natural a
    let b ← Decoder.natural b
    return .subproof a b
  | _ => none

/-- A step as an object. -/
def Step.toJson (s : Step) : Json :=
  .object
    [("level", .natural s.level),
      ("formula", s.formula.toJson),
      ("citations", .array (s.citations.map Citation.toJson)),
      ("rule_name", .string s.ruleName),
      ("rule_abbrev", .string s.ruleAbbreviation),
      ("bindings", s.bindings.toJson),
      ("conclusion_index", .natural s.conclusionIndex)]

/-- The names of the fields of a step. -/
def Step.fieldNames : List String :=
  ["level", "formula", "citations", "rule_name", "rule_abbrev", "bindings", "conclusion_index"]

/-- Reads a step. -/
def Step.ofJson? : Decoder Step := fun v =>
  match fields? Step.fieldNames v with
  | some [level, formula, citations, name, abbreviation, bindings, index] => do
    let level ← Decoder.natural.required level
    let formula ← Decoder.required Formula.ofJson? formula
    let citations ← (Decoder.list Citation.ofJson?).required citations
    let name ← Decoder.text.required name
    let abbreviation ← Decoder.text.required abbreviation
    let bindings ← Decoder.required Substitution.ofJson? bindings
    let index ← Decoder.natural.required index
    return ⟨level, formula, citations, name, abbreviation, bindings, index⟩
  | _ => none

end NaturalDeduction
