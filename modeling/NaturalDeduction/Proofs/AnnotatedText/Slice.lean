import NaturalDeduction.AnnotatedText.Basic
import Mathlib.Tactic.Common

/-! # Cutting a text at its characters

    Offsets count characters and the text is stored as bytes. A table says at
    which byte each character starts. As long as it agrees with the text
    (`Aligned`), every span can be cut out, and what is cut out are the
    characters at the offsets of the span, as far as the text reaches.
-/

namespace NaturalDeduction

/-! ### Bytes -/

/-- The end of a first part of a text is a place between two characters. -/
theorem exists_pos_of_eq_append {text a b : String} (h : text = a ++ b) :
    ∃ p : text.Pos, text.pos? ⟨a.utf8ByteSize⟩ = some p ∧ p.Splits a b := by
  have hvalid : String.Pos.Raw.IsValid text ⟨a.utf8ByteSize⟩ :=
    String.Pos.Raw.isValid_iff_exists_append.mpr ⟨a, b, h, rfl⟩
  have hslice : String.Pos.Raw.isValidForSlice text.toSlice ⟨a.utf8ByteSize⟩ = true := by
    rw [String.Pos.Raw.isValidForSlice_eq_true_iff]
    exact String.Pos.Raw.isValidForSlice_toSlice_iff.mpr hvalid
  refine ⟨text.pos ⟨a.utf8ByteSize⟩ hvalid, ?_, h, rfl⟩
  simp only [String.pos?, String.Slice.pos?, hslice]
  rfl

/-- Between the ends of two first parts lies what the longer one has more. -/
theorem bytesBetween?_eq_some {text a b c : String} (h : text = a ++ b ++ c) :
    bytesBetween? text a.utf8ByteSize (a ++ b).utf8ByteSize = some b := by
  obtain ⟨first, hfirst, hfirstSplits⟩ := exists_pos_of_eq_append (h.trans String.append_assoc)
  obtain ⟨last, hlast, hlastSplits⟩ := exists_pos_of_eq_append h
  obtain ⟨hle, hcopy⟩ := String.copy_slice_eq_iff_splits.mpr ⟨a, c, hfirstSplits, hlastSplits⟩
  have hcut : text.slice? first last = some (text.slice first last hle) := dif_pos hle
  unfold bytesBetween?
  rw [hfirst, hlast]
  show (text.slice? first last).bind (fun part => some part.copy) = some b
  rw [hcut, Option.bind_some, hcopy]

/-! ### Characters -/

/-- The characters at the offsets of a span. -/
def Span.characters (s : Span) (cs : List Char) : List Char :=
  (cs.zipIdx.filter fun c => s.contains c.2).map Prod.fst

/-- With the count of offsets started at `k`, a span takes and drops `k` less. -/
theorem Span.filter_zipIdx (s : Span) (cs : List Char) (k : Nat) :
    ((cs.zipIdx k).filter fun c => s.contains c.2).map Prod.fst =
      (cs.take (s.stop - k)).drop (s.start - k) := by
  induction cs generalizing k with
  | nil => simp
  | cons c cs ih =>
    rw [List.zipIdx_cons]
    by_cases hstop : s.stop ≤ k
    · -- the span ends before all that is left
      have hout : s.contains k = false := by
        simp only [contains, Bool.and_eq_false_iff, decide_eq_false_iff_not]
        omega
      have hnext : s.stop - (k + 1) = 0 := by omega
      rw [List.filter_cons_of_neg (by simp [hout]), ih, hnext, Nat.sub_eq_zero_of_le hstop]
      simp
    · rw [show s.stop - k = s.stop - (k + 1) + 1 by omega, List.take_succ_cons]
      by_cases hstart : s.start ≤ k
      · have hin : s.contains k = true := by
          simp only [contains, Bool.and_eq_true, decide_eq_true_eq]
          omega
        rw [List.filter_cons_of_pos (by simp [hin]), List.map_cons, ih,
          Nat.sub_eq_zero_of_le hstart, Nat.sub_eq_zero_of_le (by omega)]
        simp
      · have hout : s.contains k = false := by
          simp only [contains, Bool.and_eq_false_iff, decide_eq_false_iff_not]
          omega
        rw [List.filter_cons_of_neg (by simp [hout]), ih,
          show s.start - k = s.start - (k + 1) + 1 by omega, List.drop_succ_cons]

/-- Clamping a span to the text loses no character. -/
theorem Span.characters_eq (s : Span) (cs : List Char) :
    s.characters cs =
      (cs.take (min s.stop cs.length)).drop (min s.start (min s.stop cs.length)) := by
  unfold characters
  rw [s.filter_zipIdx cs 0, Nat.sub_zero, Nat.sub_zero, ← List.take_eq_take_min]
  by_cases hstart : s.start ≤ min s.stop cs.length
  · rw [Nat.min_eq_left hstart]
  · rw [List.drop_eq_nil_of_le, List.drop_eq_nil_of_le]
    · rw [List.length_take]
      omega
    · rw [List.length_take]
      omega

/-! ### Boundaries -/

/-- The byte at which the character at an offset starts. -/
def byteOffset (cs : List Char) (offset : Nat) : Nat :=
  (String.ofList (cs.take offset)).utf8ByteSize

namespace AnnotatedText

variable {α : Type} {t : AnnotatedText α}

/-- Every character has a cell, and the boundaries are where the characters start and the text
    ends. -/
structure Aligned (t : AnnotatedText α) : Prop where
  length_eq : t.length = t.text.toList.length
  boundaries_eq : t.boundaries = (List.range (t.length + 1)).map (byteOffset t.text.toList)

/-- Another character has its end as a new boundary. -/
theorem Aligned.push (h : t.Aligned) (c : Char) (cell : Cell) (regions : List (Region α)) :
    Aligned ⟨t.text.push c, t.boundaries ++ [(t.text.push c).utf8ByteSize], t.cells ++ [cell],
      regions⟩ := by
  have hlength := h.length_eq
  constructor
  · simp only [length, List.length_append, String.toList_push] at hlength ⊢
    simp [hlength]
  · show t.boundaries ++ _ =
      (List.range ((t.cells ++ [cell]).length + 1)).map (byteOffset (t.text.push c).toList)
    rw [List.length_append, List.length_singleton, List.range_succ, List.map_append, h.boundaries_eq]
    congr 1
    · -- the characters that were there start where they did
      refine List.map_congr_left ?_
      intro k hk
      have hle : k ≤ t.text.toList.length := by
        rw [← hlength]
        exact Nat.lt_succ_iff.mp (List.mem_range.mp hk)
      rw [byteOffset, byteOffset, String.toList_push, List.take_append_of_le_length hle]
    · have hend : t.cells.length + 1 = (t.text.push c).toList.length := by
        rw [String.toList_push, List.length_append, ← hlength]
        rfl
      rw [List.map_singleton, byteOffset, hend, List.take_length, String.ofList_toList]

theorem Aligned.getElem?_boundaries (h : t.Aligned) {k : Nat} (hk : k ≤ t.length) :
    t.boundaries[k]? = some (byteOffset t.text.toList k) := by
  rw [h.boundaries_eq, List.getElem?_map, List.getElem?_range (Nat.lt_succ_of_le hk)]
  rfl

/-- Every span can be cut out of a text with its boundaries. -/
theorem Aligned.slice?_eq (h : t.Aligned) (s : Span) :
    t.slice? s = some (String.ofList (s.characters t.text.toList)) := by
  have hlength := h.length_eq
  generalize hcs : t.text.toList = cs at hlength
  let stop := min s.stop t.length
  let start := min s.start stop
  have hstart : start ≤ stop := Nat.min_le_right _ _
  have hstop : stop ≤ t.length := Nat.min_le_right _ _
  -- the part of the text before the end of the span
  have hfirst : String.ofList (cs.take start) ++ String.ofList ((cs.take stop).drop start) =
      String.ofList (cs.take stop) := by
    have hfront : cs.take start = (cs.take stop).take start := by
      rw [List.take_take, Nat.min_eq_left hstart]
    rw [← String.ofList_append, hfront, List.take_append_drop]
  have htext : t.text = String.ofList (cs.take start) ++
      String.ofList ((cs.take stop).drop start) ++ String.ofList (cs.drop stop) := by
    rw [hfirst, ← String.ofList_append, List.take_append_drop, ← hcs, String.ofList_toList]
  have hcut := bytesBetween?_eq_some htext
  rw [hfirst] at hcut
  rw [s.characters_eq, ← hlength]
  show (t.boundaries[start]?.bind fun first => t.boundaries[stop]?.bind fun last =>
    bytesBetween? t.text first last) = _
  rw [h.getElem?_boundaries (Nat.le_trans hstart hstop), h.getElem?_boundaries hstop, hcs]
  exact hcut

end AnnotatedText

end NaturalDeduction
