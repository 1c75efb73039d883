import NaturalDeduction.AnnotatedText.Draft
import NaturalDeduction.Mutation

/-! # Changing a draft in place

    A draft may be kept in one place and be changed there, one field after the
    other. Two of the edits do not make all their checks before the first
    change. The end of a dominant span forgets that span before it asks whether
    there was one, and text that is dominant as a whole is written in three
    parts, of which the first and the last may be refused.
-/

namespace NaturalDeduction

namespace Draft.InPlace

variable {α : Type}

/-- Opens a region inside the innermost open one. -/
def openRegion (data : α) : Mutation (Draft α) RegionError Unit := do
  let d ← get
  let region : Region α :=
    ⟨⟨d.position, d.position⟩, none, d.openRegions.head?, d.openRegions.length, data⟩
  modify fun d => { d with regions := d.regions ++ [region] }
  modify fun d => { d with openRegions := (d.regions.length - 1) :: d.openRegions }

/-- Closes the innermost open region. -/
def closeRegion : Mutation (Draft α) RegionError Unit := do
  let d ← get
  match d.openRegions with
  | [] => throw .noOpenRegion
  | i :: outer =>
    if d.dominant = some i then throw .unclosedDominant
    else
      modify fun d => { d with openRegions := outer }
      modify fun d => { d with
        regions := d.regions.modify i fun r => { r with span := ⟨r.span.start, d.position⟩ } }

/-- Opens the dominant span of the innermost open region, which must not have one yet. -/
def openDominant : Mutation (Draft α) RegionError Unit := do
  let d ← get
  match d.openRegions with
  | [] => throw .noOpenRegion
  | i :: _ =>
    if d.dominant.isSome || (d.regions[i]?.bind Region.dominant).isSome then
      throw .overlappingDominant
    else
      modify fun d => { d with
        regions := d.regions.modify i fun r =>
          { r with dominant := some ⟨d.position, d.position⟩ } }
      modify fun d => { d with dominant := some i }

/-- Closes the dominant span that is open. -/
def closeDominant : Mutation (Draft α) RegionError Unit := do
  let d ← get
  modify fun d => { d with dominant := none }
  match d.dominant with
  | none => throw .noOpenDominant
  | some i =>
    modify fun d => { d with
      regions := d.regions.modify i fun r =>
        { r with dominant := r.dominant.map fun s => ⟨s.start, d.position⟩ } }

/-- Writes characters inside the innermost open region. -/
def pushAll : List Char → Mutation (Draft α) RegionError Unit
  | [] => pure ()
  | c :: cs => do
    modify fun d => { d with text := d.text.push c }
    modify fun d => { d with boundaries := d.boundaries ++ [d.text.utf8ByteSize] }
    modify fun d => { d with cells := d.cells ++ [⟨d.dominant, d.openRegions.head?⟩] }
    pushAll cs

/-- Carries out an edit. -/
def perform : Edit α → Mutation (Draft α) RegionError Unit
  | .openRegion data => openRegion data
  | .closeRegion => closeRegion
  | .openDominant => openDominant
  | .closeDominant => closeDominant
  | .append text => pushAll text.toList
  | .appendDominant text => do
    openDominant
    pushAll text.toList
    closeDominant

end Draft.InPlace

/-- The draft after attempts at edits, one after the other. Those that are refused are passed over. -/
def Draft.attemptAll {α : Type} (d : Draft α) (edits : List (Edit α)) : Draft α :=
  edits.foldl (fun d edit => (Mutation.outcome (InPlace.perform edit) d).2) d

end NaturalDeduction
