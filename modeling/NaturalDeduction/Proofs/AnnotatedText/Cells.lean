import NaturalDeduction.Proofs.AnnotatedText.Regions
import NaturalDeduction.Proofs.AnnotatedText.Slice

/-! # Characters and their regions

    For each character a text notes the region that owns it and the innermost
    region around it, at the time when the character is written. Both notes stay
    right while the text grows (`Addressed`): spans that are open are stretched
    only by characters that come later, and what is opened later starts later.

    A text is kept here as it would be if all were closed now. Four changes to
    it are possible: a new region, a new dominant span, another character, and
    that something which was open is so no longer.
-/

namespace NaturalDeduction

variable {α : Type} {regions : List (Region α)} {cell : Cell} {g : Nat → Region α → Region α}
  {i offset stop : Nat} {openRegions : List Nat} {dominant : Option Nat}

/-- Does the dominant span of a region cover an offset? -/
def Region.Owns (r : Region α) (offset : Nat) : Prop :=
  ∃ s, r.dominant = some s ∧ s.contains offset = true

/-! ### One character -/

/-- What is noted for the character at an offset agrees with the regions. -/
structure Cell.Located (cell : Cell) (regions : List (Region α)) (offset : Nat) : Prop where
  owner_iff : ∀ i, cell.owner = some i ↔ ∃ r, regions[i]? = some r ∧ r.Owns offset
  /-- The regions around the character are the innermost one and those around that one. -/
  enclosing_chain : ∃ js, Region.Chain regions js ∧ js.head? = cell.enclosing ∧
    ∀ (i : Nat) r, regions[i]? = some r → (r.span.contains offset = true ↔ i ∈ js)

namespace Cell.Located

/-- Changes of regions that cover an offset as before. -/
theorem mapIdx (h : cell.Located regions offset) (hparent : ∀ i r, (g i r).parent = r.parent)
    (howns : ∀ i r, regions[i]? = some r → ((g i r).Owns offset ↔ r.Owns offset))
    (hspan : ∀ i r, regions[i]? = some r →
      ((g i r).span.contains offset = true ↔ r.span.contains offset = true)) :
    cell.Located (regions.mapIdx g) offset := by
  constructor
  · intro i
    rw [h.owner_iff i]
    constructor
    · intro ⟨r, hr, hcovers⟩
      exact ⟨g i r, by rw [List.getElem?_mapIdx, hr]; rfl, (howns i r hr).mpr hcovers⟩
    · intro ⟨r', hr', hcovers⟩
      obtain ⟨r, hr, rfl⟩ := Region.exists_of_mapIdx hr'
      exact ⟨r, hr, (howns i r hr).mp hcovers⟩
  · obtain ⟨js, hchain, hhead, hmem⟩ := h.enclosing_chain
    refine ⟨js, (Region.chain_mapIdx_iff hparent).mpr hchain, hhead, ?_⟩
    intro i r' hr'
    obtain ⟨r, hr, rfl⟩ := Region.exists_of_mapIdx hr'
    exact (hspan i r hr).trans (hmem i r hr)

/-- A new region is empty and covers nothing. -/
theorem openRegion (h : cell.Located regions offset) (data : α) :
    cell.Located (regions ++ [Region.next openRegions stop data]) offset := by
  constructor
  · intro i
    rw [h.owner_iff i]
    constructor
    · intro ⟨r, hr, howns⟩
      have hi : i < regions.length := (List.getElem?_eq_some_iff.mp hr).1
      exact ⟨r, by rw [List.getElem?_append_left hi]; exact hr, howns⟩
    · intro ⟨r, hr, howns⟩
      rcases Region.getElem?_concat_cases hr with ⟨_, hr⟩ | ⟨rfl, rfl⟩
      · exact ⟨r, hr, howns⟩
      · obtain ⟨s, hs, _⟩ := howns
        cases hs
  · obtain ⟨js, hchain, hhead, hmem⟩ := h.enclosing_chain
    refine ⟨js, hchain.append _, hhead, ?_⟩
    intro i r hr
    rcases Region.getElem?_concat_cases hr with ⟨_, hr⟩ | ⟨rfl, rfl⟩
    · exact hmem i r hr
    · -- the chain was there before the new region
      have hout : regions.length ∉ js := fun hlast =>
        Nat.lt_irrefl _ (hchain.lt_length _ hlast)
      simp only [Span.contains_iff, Region.next, hout, iff_false]
      omega

end Cell.Located

/-! ### A text that grows -/

namespace Region

/-- A region in a text up to `stop`: if it is open it reaches to there, and so does its dominant
    span if that is open. -/
def upTo (openRegions : List Nat) (dominant : Option Nat) (stop i : Nat) (r : Region α) :
    Region α :=
  { r with
    span := if i ∈ openRegions then ⟨r.span.start, stop⟩ else r.span
    dominant := if dominant = some i then r.dominant.map fun s => ⟨s.start, stop⟩ else r.dominant }

section UpTo

variable {r : Region α}

theorem parent_upTo (i : Nat) (r : Region α) :
    (r.upTo openRegions dominant stop i).parent = r.parent := rfl

theorem span_upTo_of_mem (hi : i ∈ openRegions) :
    (r.upTo openRegions dominant stop i).span = ⟨r.span.start, stop⟩ := if_pos hi

theorem span_upTo_of_not_mem (hi : i ∉ openRegions) :
    (r.upTo openRegions dominant stop i).span = r.span := if_neg hi

theorem dominant_upTo_of_eq {s : Span} (hi : dominant = some i) (hs : r.dominant = some s) :
    (r.upTo openRegions dominant stop i).dominant = some ⟨s.start, stop⟩ := by
  simp only [upTo, if_pos hi, hs, Option.map_some]

theorem dominant_upTo_of_ne (hi : dominant ≠ some i) :
    (r.upTo openRegions dominant stop i).dominant = r.dominant := if_neg hi

end UpTo

/-- A region that is given a dominant span at `stop` if it is the one with index `i`. -/
def markAt (i stop j : Nat) (r : Region α) : Region α :=
  if j = i then { r with dominant := some ⟨stop, stop⟩ } else r

@[simp] theorem span_markAt (i stop j : Nat) (r : Region α) : (r.markAt i stop j).span = r.span := by
  unfold markAt
  split <;> rfl

@[simp] theorem parent_markAt (i stop j : Nat) (r : Region α) :
    (r.markAt i stop j).parent = r.parent := by
  unfold markAt
  split <;> rfl

@[simp] theorem depth_markAt (i stop j : Nat) (r : Region α) :
    (r.markAt i stop j).depth = r.depth := by
  unfold markAt
  split <;> rfl

theorem dominant_markAt (i stop j : Nat) (r : Region α) :
    (r.markAt i stop j).dominant = if j = i then some ⟨stop, stop⟩ else r.dominant := by
  unfold markAt
  split <;> rfl

end Region

namespace AnnotatedText

variable {t : AnnotatedText α}

/-- A new region at the end of the text. -/
def openRegion (t : AnnotatedText α) (openRegions : List Nat) (data : α) : AnnotatedText α :=
  { t with regions := t.regions ++ [Region.next openRegions t.length data] }

/-- A dominant span at the end of the text, for the region with an index. -/
def openDominant (t : AnnotatedText α) (i : Nat) : AnnotatedText α :=
  { t with regions := t.regions.mapIdx (Region.markAt i t.length) }

/-- Another character. What is open is stretched. -/
def push (t : AnnotatedText α) (openRegions : List Nat) (dominant : Option Nat) (c : Char) :
    AnnotatedText α where
  text := t.text.push c
  boundaries := t.boundaries ++ [(t.text.push c).utf8ByteSize]
  cells := t.cells ++ [⟨dominant, openRegions.head?⟩]
  regions := t.regions.mapIdx (Region.upTo openRegions dominant (t.length + 1))

/-- All that a text says of its characters is right, while some regions and perhaps a dominant span
    are open. -/
structure Addressed (t : AnnotatedText α) (openRegions : List Nat) (dominant : Option Nat) :
    Prop where
  aligned : t.Aligned
  nested : Region.Nested t.regions openRegions t.length
  dominant_within : ∀ (i : Nat) r s, t.regions[i]? = some r → r.dominant = some s →
    s.start ≤ s.stop ∧ s.Within r.span
  /-- The region whose dominant span is open is open itself, and the span reaches to the end. -/
  dominant_open : ∀ i, dominant = some i → i ∈ openRegions ∧
    ∃ r s, t.regions[i]? = some r ∧ r.dominant = some s ∧ s.stop = t.length
  located : ∀ (k : Nat) cell, t.cells[k]? = some cell → cell.Located t.regions k

namespace Addressed

theorem empty : Addressed (⟨"", [0], [], []⟩ : AnnotatedText α) [] none := by
  refine ⟨⟨rfl, rfl⟩, .empty, ?_, ?_, ?_⟩ <;> simp

theorem openRegion (h : t.Addressed openRegions dominant) (data : α) :
    (t.openRegion openRegions data).Addressed (t.regions.length :: openRegions) dominant := by
  constructor
  case aligned => exact ⟨h.aligned.length_eq, h.aligned.boundaries_eq⟩
  case nested => exact h.nested.openRegion data
  case dominant_within =>
    intro i r s hr hs
    rcases Region.getElem?_concat_cases hr with ⟨_, hr⟩ | ⟨_, rfl⟩
    · exact h.dominant_within i r s hr hs
    · cases hs
  case dominant_open =>
    intro i hi
    obtain ⟨hmem, r, s, hr, hs⟩ := h.dominant_open i hi
    have hlt : i < t.regions.length := (List.getElem?_eq_some_iff.mp hr).1
    exact ⟨List.mem_cons_of_mem _ hmem, r, s, (List.getElem?_append_left hlt).trans hr, hs⟩
  case located => exact fun k cell hcell => (h.located k cell hcell).openRegion data

theorem closeRegion (h : t.Addressed (i :: openRegions) dominant) (hi : dominant ≠ some i) :
    t.Addressed openRegions dominant :=
  { h with
    nested := h.nested.closeRegion
    dominant_open := by
      intro j hj
      obtain ⟨hmem, hspan⟩ := h.dominant_open j hj
      rcases List.mem_cons.mp hmem with rfl | hmem
      · exact absurd hj hi
      · exact ⟨hmem, hspan⟩ }

theorem closeDominant (h : t.Addressed openRegions dominant) : t.Addressed openRegions none :=
  { h with dominant_open := by simp }

/-- The new span is empty, so it covers nothing that was written before. -/
theorem openDominant (h : t.Addressed openRegions dominant) {r : Region α} (hi : i ∈ openRegions)
    (hr : t.regions[i]? = some r) (hdominant : r.dominant = none) :
    (t.openDominant i).Addressed openRegions (some i) := by
  have hspan := h.nested.span_le i r hr
  have hstop := h.nested.open_stop i hi r hr
  constructor
  case aligned => exact ⟨h.aligned.length_eq, h.aligned.boundaries_eq⟩
  case nested =>
    refine h.nested.stretch (Nat.le_refl _) (Region.parent_markAt i _) (Region.depth_markAt i _) ?_
    -- an open region reaches to the end already
    intro j r' hr'
    rw [Region.span_markAt]
    split
    · rename_i hj
      exact congrArg (Span.mk r'.span.start) (h.nested.open_stop j hj r' hr')
    · rfl
  case dominant_within =>
    intro j r₁ s hr₁ hs
    obtain ⟨r', hr', rfl⟩ := Region.exists_of_mapIdx hr₁
    rw [Region.dominant_markAt] at hs
    rw [Region.span_markAt]
    by_cases hj : j = i
    · subst hj
      cases hr'.symm.trans hr
      rw [if_pos rfl] at hs
      cases hs
      exact ⟨Nat.le_refl _, show r.span.start ≤ t.length by omega, Nat.le_of_eq hstop.symm⟩
    · rw [if_neg hj] at hs
      exact h.dominant_within j r' s hr' hs
  case dominant_open =>
    intro j hj
    cases hj
    refine ⟨hi, r.markAt i t.length i, ⟨t.length, t.length⟩, ?_, ?_, rfl⟩
    · simp [AnnotatedText.openDominant, hr]
    · rw [Region.dominant_markAt, if_pos rfl]
  case located =>
    intro k cell hcell
    have hbefore : k < t.length := (List.getElem?_eq_some_iff.mp hcell).1
    refine (h.located k cell hcell).mapIdx (Region.parent_markAt i _) ?_ ?_
    · intro j r' hr'
      unfold Region.Owns
      rw [Region.dominant_markAt]
      by_cases hj : j = i
      · subst hj
        cases hr'.symm.trans hr
        have hempty : ¬ (⟨t.length, t.length⟩ : Span).contains k = true := by
          rw [Span.contains_iff]
          show ¬ (t.length ≤ k ∧ k < t.length)
          omega
        simp [hdominant, hempty]
      · rw [if_neg hj]
    · intro j r' hr'
      rw [Region.span_markAt]

section Stretched

variable (h : t.Addressed openRegions dominant) {r : Region α} (hr : t.regions[i]? = some r)

include h hr

theorem dominant_of_open (hi : dominant = some i) :
    i ∈ openRegions ∧ ∃ s, r.dominant = some s ∧ s.start ≤ t.length ∧ s.stop = t.length := by
  obtain ⟨hmem, r', s, hr', hs, hstop⟩ := h.dominant_open i hi
  cases hr.symm.trans hr'
  have hle := (h.dominant_within i r s hr hs).1
  exact ⟨hmem, s, hs, by omega, hstop⟩

/-- Stretching beyond the end covers nothing more before the end. -/
theorem contains_upTo_of_lt (hoffset : offset < t.length) :
    (r.upTo openRegions dominant (t.length + 1) i).span.contains offset = true ↔
      r.span.contains offset = true := by
  by_cases hi : i ∈ openRegions
  · have hstop := h.nested.open_stop i hi r hr
    rw [Region.span_upTo_of_mem hi, Span.contains_iff, Span.contains_iff]
    show r.span.start ≤ offset ∧ offset < t.length + 1 ↔ _
    omega
  · rw [Region.span_upTo_of_not_mem hi]

theorem contains_upTo_end :
    (r.upTo openRegions dominant (t.length + 1) i).span.contains t.length = true ↔
      i ∈ openRegions := by
  obtain ⟨hstart, hstop⟩ := h.nested.span_le i r hr
  by_cases hi : i ∈ openRegions
  · rw [Region.span_upTo_of_mem hi, Span.contains_iff]
    exact iff_of_true ⟨show r.span.start ≤ t.length by omega, Nat.lt_succ_self _⟩ hi
  · rw [Region.span_upTo_of_not_mem hi, Span.contains_iff]
    exact iff_of_false (by omega) hi

theorem owns_upTo_of_lt (hoffset : offset < t.length) :
    (r.upTo openRegions dominant (t.length + 1) i).Owns offset ↔ r.Owns offset := by
  unfold Region.Owns
  by_cases hi : dominant = some i
  · obtain ⟨_, s, hs, _, hstop⟩ := h.dominant_of_open hr hi
    rw [Region.dominant_upTo_of_eq hi hs, hs]
    simp only [Option.some.injEq, exists_eq_left', Span.contains_iff]
    omega
  · rw [Region.dominant_upTo_of_ne hi]

theorem owns_upTo_end :
    (r.upTo openRegions dominant (t.length + 1) i).Owns t.length ↔ dominant = some i := by
  by_cases hi : dominant = some i
  · obtain ⟨_, s, hs, hstart, _⟩ := h.dominant_of_open hr hi
    refine iff_of_true ⟨_, Region.dominant_upTo_of_eq hi hs, ?_⟩ hi
    rw [Span.contains_iff]
    exact ⟨hstart, Nat.lt_succ_self _⟩
  · -- a span that is closed ends before the new character
    refine iff_of_false ?_ hi
    rintro ⟨s, hs, hcontains⟩
    rw [Region.dominant_upTo_of_ne hi] at hs
    rw [Span.contains_iff] at hcontains
    obtain ⟨_, _, hwithin⟩ := h.dominant_within i r s hr hs
    obtain ⟨_, hstop⟩ := h.nested.span_le i r hr
    omega

theorem dominant_within_upTo {s : Span}
    (hs : (r.upTo openRegions dominant (t.length + 1) i).dominant = some s) :
    s.start ≤ s.stop ∧ s.Within (r.upTo openRegions dominant (t.length + 1) i).span := by
  by_cases hi : dominant = some i
  · -- the dominant span is stretched together with its region
    obtain ⟨hmem, s', hs', hstart, _⟩ := h.dominant_of_open hr hi
    obtain ⟨_, hwithin, _⟩ := h.dominant_within i r s' hr hs'
    cases (Region.dominant_upTo_of_eq hi hs').symm.trans hs
    rw [Region.span_upTo_of_mem hmem]
    exact ⟨Nat.le_succ_of_le hstart, hwithin, Nat.le_refl _⟩
  · rw [Region.dominant_upTo_of_ne hi] at hs
    obtain ⟨hle, hwithin⟩ := h.dominant_within i r s hr hs
    refine ⟨hle, ?_⟩
    by_cases hmem : i ∈ openRegions
    · have hstop : s.stop ≤ t.length :=
        Nat.le_trans hwithin.2 (h.nested.span_le i r hr).2
      rw [Region.span_upTo_of_mem hmem]
      exact ⟨hwithin.1, Nat.le_succ_of_le hstop⟩
    · rw [Region.span_upTo_of_not_mem hmem]
      exact hwithin

end Stretched

/-- The note for another character says what is open now. -/
theorem located_push (h : t.Addressed openRegions dominant) :
    (⟨dominant, openRegions.head?⟩ : Cell).Located
      (t.regions.mapIdx (Region.upTo openRegions dominant (t.length + 1))) t.length := by
  constructor
  · intro i
    constructor
    · intro hi
      obtain ⟨_, r, _, hr, _⟩ := h.dominant_open i hi
      exact ⟨_, by rw [List.getElem?_mapIdx, hr]; rfl, (h.owns_upTo_end hr).mpr hi⟩
    · rintro ⟨r', hr', howns⟩
      obtain ⟨r, hr, rfl⟩ := Region.exists_of_mapIdx hr'
      exact (h.owns_upTo_end hr).mp howns
  · refine ⟨openRegions, ?_, rfl, ?_⟩
    · exact (Region.chain_mapIdx_iff Region.parent_upTo).mpr h.nested.open_chain
    intro i r' hr'
    obtain ⟨r, hr, rfl⟩ := Region.exists_of_mapIdx hr'
    exact h.contains_upTo_end hr

theorem push (h : t.Addressed openRegions dominant) (c : Char) :
    (t.push openRegions dominant c).Addressed openRegions dominant := by
  have hlength : (t.push openRegions dominant c).length = t.length + 1 := by
    simp [AnnotatedText.push, length]
  constructor
  case aligned => exact h.aligned.push c _ _
  case nested =>
    rw [hlength]
    exact h.nested.stretch (Nat.le_succ _) Region.parent_upTo (fun _ _ => rfl) (fun _ _ _ => rfl)
  case dominant_within =>
    intro i r' s hr' hs
    obtain ⟨r, hr, rfl⟩ := Region.exists_of_mapIdx hr'
    exact h.dominant_within_upTo hr hs
  case dominant_open =>
    intro i hi
    obtain ⟨hmem, r, s, hr, hs, hstop⟩ := h.dominant_open i hi
    refine ⟨hmem, r.upTo openRegions dominant (t.length + 1) i, ⟨s.start, t.length + 1⟩, ?_, ?_,
      hlength.symm⟩
    · simp [AnnotatedText.push, hr]
    · exact Region.dominant_upTo_of_eq hi hs
  case located =>
    intro k cell hcell
    by_cases hk : k < t.length
    · rw [AnnotatedText.push, List.getElem?_append_left hk] at hcell
      exact (h.located k cell hcell).mapIdx Region.parent_upTo
        (fun i r hr => h.owns_upTo_of_lt hr hk) (fun i r hr => h.contains_upTo_of_lt hr hk)
    · have hlast : k < (t.push openRegions dominant c).length :=
        (List.getElem?_eq_some_iff.mp hcell).1
      have hk' : k = t.length := by omega
      subst hk'
      have hcell' : some ⟨dominant, openRegions.head?⟩ = some cell :=
        List.getElem?_concat_length.symm.trans hcell
      cases hcell'
      exact h.located_push

end Addressed

end AnnotatedText

end NaturalDeduction
