import NaturalDeduction.Source

/-! # Annotated text

    A text with nested regions. A region spans all that was written while it
    was open and carries data of the writer's choice. It may have one dominant
    span: the part that the region wrote itself, as opposed to separators and
    to what was written by regions inside it.

    Every character knows the region whose dominant span covers it, its owner,
    and the innermost region around it. Offsets count characters. The text is
    kept as bytes, together with the byte at which each character starts.
-/

namespace NaturalDeduction

/-- The offsets from `start` up to, but not including, `stop`. -/
structure Span where
  start : Nat
  stop : Nat
deriving DecidableEq, Repr

namespace Span

/-- The number of offsets. -/
def length (s : Span) : Nat := s.stop - s.start

/-- Is there no offset? -/
def isEmpty (s : Span) : Bool := s.start == s.stop

/-- Is an offset in the span? -/
def contains (s : Span) (offset : Nat) : Bool := s.start ≤ offset && offset < s.stop

end Span

/-- A part of a text with data. -/
structure Region (α : Type) where
  /-- All that was written while the region was open. -/
  span : Span
  /-- What the region wrote itself. -/
  dominant : Option Span
  /-- The index of the region around it. -/
  parent : Option Nat
  /-- The number of regions around it. -/
  depth : Nat
  data : α
deriving Repr

/-- The indices of the regions of a character. -/
structure Cell where
  /-- The region whose dominant span covers the character. -/
  owner : Option Nat
  /-- The innermost region around the character. -/
  enclosing : Option Nat
deriving DecidableEq, Repr

/-- A text with regions, in the order in which they were opened. -/
structure AnnotatedText (α : Type) where
  text : String
  /-- The byte at which each character starts, and at the end the number of bytes. -/
  boundaries : List Nat
  /-- What is known of each character. -/
  cells : List Cell
  regions : List (Region α)
deriving Repr

namespace AnnotatedText

variable {α : Type} (t : AnnotatedText α)

/-- The number of characters. -/
def length : Nat := t.cells.length

/-- The index of the region whose dominant span covers an offset. -/
def ownerIndexAt? (offset : Nat) : Option Nat := t.cells[offset]?.bind Cell.owner

/-- The region whose dominant span covers an offset. -/
def ownerAt? (offset : Nat) : Option (Region α) :=
  (t.ownerIndexAt? offset).bind fun i => t.regions[i]?

/-- The innermost region around an offset. -/
def enclosingAt? (offset : Nat) : Option (Region α) :=
  (t.cells[offset]?.bind Cell.enclosing).bind fun i => t.regions[i]?

/-- The text of a span, as far as the text reaches. It cannot be had if the boundaries do not agree
    with the text. -/
def slice? (s : Span) : Option String := do
  let stop := min s.stop t.length
  let start := min s.start stop
  bytesBetween? t.text (← t.boundaries[start]?) (← t.boundaries[stop]?)

/-- The text of a region. -/
def regionText? (r : Region α) : Option String := t.slice? r.span

/-- The text that a region wrote itself. -/
def dominantText? (r : Region α) : Option String := r.dominant.bind t.slice?

end AnnotatedText

end NaturalDeduction
