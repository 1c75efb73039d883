import NaturalDeduction.AnnotatedText.Basic

/-! # Writing annotated text

    A draft is an annotated text that is still being written. It is changed by
    edits, one at a time: regions are opened and closed like brackets, text is
    appended inside the innermost open region, and a region marks its dominant
    span by opening and closing it. An edit that makes no sense is refused, and
    the draft stays as it was.

    At most one dominant span is open at a time. While it is open, all text
    belongs to it, also text of regions opened meanwhile.
-/

namespace NaturalDeduction

/-- Why an edit is refused, or a draft cannot be finished. -/
inductive RegionError where
  | noOpenRegion
  | overlappingDominant
  | noOpenDominant
  | unclosedDominant
  | unclosedRegion (count : Nat)
deriving DecidableEq, Repr

/-- The wording of a refused edit. -/
def RegionError.message : RegionError → String
  | .noOpenRegion => "no region is open"
  | .overlappingDominant => "dominant spans may not overlap"
  | .noOpenDominant => "no dominant span is open"
  | .unclosedDominant => "region closed while its dominant span is still open"
  | .unclosedRegion count => s!"{count} region(s) left open"

/-- A change to a draft. -/
inductive Edit (α : Type) where
  | openRegion (data : α)
  | closeRegion
  | openDominant
  | closeDominant
  | append (text : String)
  /-- The whole dominant span of the innermost open region. -/
  | appendDominant (text : String)
deriving Repr

/-- An annotated text that is being written. -/
structure Draft (α : Type) where
  text : String
  /-- The byte at which each character starts, and at the end the number of bytes. -/
  boundaries : List Nat
  cells : List Cell
  regions : List (Region α)
  /-- The indices of the open regions, innermost first. -/
  openRegions : List Nat
  /-- The region whose dominant span is open. -/
  dominant : Option Nat
deriving Repr

namespace Draft

variable {α : Type}

/-- Nothing is written. -/
def empty : Draft α := ⟨"", [0], [], [], [], none⟩

/-- The offset at which the next character is written. -/
def position (d : Draft α) : Nat := d.cells.length

/-- Opens a region inside the innermost open one. -/
def openRegion (d : Draft α) (data : α) : Draft α :=
  let region : Region α :=
    ⟨⟨d.position, d.position⟩, none, d.openRegions.head?, d.openRegions.length, data⟩
  { d with
    regions := d.regions ++ [region]
    openRegions := d.regions.length :: d.openRegions }

/-- Closes the innermost open region. -/
def closeRegion (d : Draft α) : Except RegionError (Draft α) :=
  match d.openRegions with
  | [] => .error .noOpenRegion
  | i :: outer =>
    if d.dominant = some i then .error .unclosedDominant
    else .ok { d with
      regions := d.regions.modify i fun r => { r with span := ⟨r.span.start, d.position⟩ }
      openRegions := outer }

/-- Opens the dominant span of the innermost open region, which must not have one yet. -/
def openDominant (d : Draft α) : Except RegionError (Draft α) :=
  match d.openRegions with
  | [] => .error .noOpenRegion
  | i :: _ =>
    if d.dominant.isSome || (d.regions[i]?.bind Region.dominant).isSome then
      .error .overlappingDominant
    else .ok { d with
      regions := d.regions.modify i fun r =>
        { r with dominant := some ⟨d.position, d.position⟩ }
      dominant := some i }

/-- Closes the dominant span that is open. -/
def closeDominant (d : Draft α) : Except RegionError (Draft α) :=
  match d.dominant with
  | none => .error .noOpenDominant
  | some i => .ok { d with
      regions := d.regions.modify i fun r =>
        { r with dominant := r.dominant.map fun s => ⟨s.start, d.position⟩ }
      dominant := none }

/-- Writes a character inside the innermost open region. -/
def push (d : Draft α) (c : Char) : Draft α :=
  let text := d.text.push c
  { d with
    text := text
    boundaries := d.boundaries ++ [text.utf8ByteSize]
    cells := d.cells ++ [⟨d.dominant, d.openRegions.head?⟩] }

/-- Appends text inside the innermost open region. -/
def append (d : Draft α) (text : String) : Draft α := text.toList.foldl push d

/-- What no character changes, no text changes. -/
theorem append_unchanged {β : Type} (view : Draft α → β) (h : ∀ d c, view (d.push c) = view d)
    (d : Draft α) (text : String) : view (d.append text) = view d := by
  unfold append
  induction text.toList generalizing d with
  | nil => rfl
  | cons c cs ih => rw [List.foldl_cons, ih, h]

@[simp] theorem regions_append (d : Draft α) (text : String) :
    (d.append text).regions = d.regions := append_unchanged regions (fun _ _ => rfl) d text

@[simp] theorem openRegions_append (d : Draft α) (text : String) :
    (d.append text).openRegions = d.openRegions :=
  append_unchanged openRegions (fun _ _ => rfl) d text

@[simp] theorem dominant_append (d : Draft α) (text : String) :
    (d.append text).dominant = d.dominant := append_unchanged dominant (fun _ _ => rfl) d text

theorem toList_text_append (d : Draft α) (text : String) :
    (d.append text).text.toList = d.text.toList ++ text.toList := by
  unfold append
  induction text.toList generalizing d with
  | nil => simp
  | cons c cs ih => simp [ih, push]

/-- Carries out an edit. -/
def apply (d : Draft α) : Edit α → Except RegionError (Draft α)
  | .openRegion data => .ok (d.openRegion data)
  | .closeRegion => d.closeRegion
  | .openDominant => d.openDominant
  | .closeDominant => d.closeDominant
  | .append text => .ok (d.append text)
  | .appendDominant text => do (← d.openDominant).append text |>.closeDominant

/-- Carries out edits one after the other, up to the first that is refused. -/
def applyAll (d : Draft α) (edits : List (Edit α)) : Except RegionError (Draft α) :=
  edits.foldlM apply d

/-- The finished text. Nothing may be open. -/
def finish (d : Draft α) : Except RegionError (AnnotatedText α) :=
  if d.dominant.isSome then .error .unclosedDominant
  else if d.openRegions.isEmpty then .ok ⟨d.text, d.boundaries, d.cells, d.regions⟩
  else .error (.unclosedRegion d.openRegions.length)

end Draft

end NaturalDeduction
