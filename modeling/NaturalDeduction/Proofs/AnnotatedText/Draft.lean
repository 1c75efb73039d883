import NaturalDeduction.AnnotatedText.InPlace
import NaturalDeduction.Proofs.AnnotatedText.Cells
import NaturalDeduction.Proofs.Except

/-! # Drafts at every stage

    A draft writes the end of a span only when the span is closed. To compare it
    with its notes on characters at every stage, it is seen as the text that it
    would be if all were closed now (`preview`). In this view an edit makes one
    of the changes that keep a text addressed, and closing something changes
    nothing at all.

    Edits in place have the same results and change nothing when they are
    refused (`outcome_perform`), so the view stays addressed along all attempts.
-/

namespace NaturalDeduction

namespace Draft

open Mutation (outcome outcome_bind)

variable {α : Type} {d d' : Draft α}

/-! ### The text if all were closed now -/

/-- The text as it would be if all that is open were closed now. -/
def preview (d : Draft α) : AnnotatedText α where
  text := d.text
  boundaries := d.boundaries
  cells := d.cells
  regions := d.regions.mapIdx (Region.upTo d.openRegions d.dominant d.position)

/-- A change of one region shows where the view of that region changes. -/
theorem mapIdx_modify_eq {regions : List (Region α)} {g g' : Nat → Region α → Region α}
    {f : Region α → Region α} {i : Nat} (hself : ∀ r, g i (f r) = g' i r)
    (hother : ∀ j r, j ≠ i → g j r = g' j r) :
    (regions.modify i f).mapIdx g = regions.mapIdx g' := by
  apply List.ext_getElem?
  intro j
  rw [List.getElem?_mapIdx, List.getElem?_mapIdx, List.getElem?_modify]
  cases regions[j]? with
  | none => rfl
  | some r =>
    by_cases hj : i = j
    · subst hj
      simp [hself]
    · simp [hj, hother j r (Ne.symm hj)]

theorem preview_openRegion (d : Draft α) (data : α) :
    (d.openRegion data).preview = d.preview.openRegion d.openRegions data := by
  simp only [preview, openRegion, AnnotatedText.openRegion, AnnotatedText.mk.injEq, true_and]
  rw [List.mapIdx_append]
  congr 1
  · rw [List.mapIdx_eq_mapIdx_iff]
    intro i hi
    have hne : i ≠ d.regions.length := Nat.ne_of_lt hi
    simp [Region.upTo, hne, position]
  · simp [Region.upTo, Region.next, position, AnnotatedText.length]

/-- A region that is closed ends where it was shown to end. -/
theorem exists_of_closeRegion (h : d.closeRegion = .ok d') :
    ∃ i, d.openRegions = i :: d'.openRegions ∧ d.dominant ≠ some i ∧ d'.dominant = d.dominant ∧
      d'.preview = d.preview := by
  unfold closeRegion at h
  cases hopen : d.openRegions with
  | nil =>
    rw [hopen] at h
    cases h
  | cons i outer =>
    simp only [hopen] at h
    split at h
    · cases h
    · rename_i hdominant
      cases h
      refine ⟨i, rfl, hdominant, rfl, ?_⟩
      simp only [preview, hopen, AnnotatedText.mk.injEq, true_and]
      refine mapIdx_modify_eq ?_ ?_
      · intro r
        simp [Region.upTo, position]
      · intro j r hj
        simp [Region.upTo, position, hj]

/-- The dominant span of the innermost region is opened at the end of the text. -/
theorem exists_of_openDominant (h : d.openDominant = .ok d') :
    ∃ i, i ∈ d.openRegions ∧ d.dominant = none ∧ (∀ r, d.regions[i]? = some r → r.dominant = none) ∧
      d'.openRegions = d.openRegions ∧ d'.dominant = some i ∧
      d'.preview = d.preview.openDominant i := by
  unfold openDominant at h
  cases hopen : d.openRegions with
  | nil =>
    rw [hopen] at h
    cases h
  | cons i outer =>
    simp only [hopen] at h
    split at h
    · cases h
    · rename_i hfree
      simp only [Bool.or_eq_true, not_or, Bool.not_eq_true, Option.isSome_eq_false_iff,
        Option.isNone_iff_eq_none] at hfree
      obtain ⟨hdominant, hregion⟩ := hfree
      cases h
      refine ⟨i, List.mem_cons_self, hdominant, ?_, rfl, rfl, ?_⟩
      · intro r hr
        rw [hr] at hregion
        exact hregion
      · simp only [preview, hopen, hdominant, AnnotatedText.openDominant, AnnotatedText.mk.injEq,
          true_and, List.mapIdx_mapIdx]
        refine mapIdx_modify_eq ?_ ?_
        · intro r
          simp [Region.upTo, Region.markAt, position, AnnotatedText.length]
        · intro j r hj
          simp [Region.upTo, Region.markAt, position, hj, Ne.symm hj]

/-- A dominant span that is closed ends where it was shown to end. -/
theorem exists_of_closeDominant (h : d.closeDominant = .ok d') :
    d'.openRegions = d.openRegions ∧ d'.dominant = none ∧ d'.preview = d.preview := by
  unfold closeDominant at h
  cases hdominant : d.dominant with
  | none =>
    rw [hdominant] at h
    cases h
  | some i =>
    simp only [hdominant] at h
    cases h
    refine ⟨rfl, rfl, ?_⟩
    simp only [preview, hdominant, AnnotatedText.mk.injEq, true_and]
    refine mapIdx_modify_eq ?_ ?_
    · intro r
      simp [Region.upTo, position]
    · intro j r hj
      simp [Region.upTo, position, Ne.symm hj]

theorem preview_push (d : Draft α) (c : Char) :
    (d.push c).preview = d.preview.push d.openRegions d.dominant c := by
  simp only [preview, push, AnnotatedText.push, AnnotatedText.mk.injEq, true_and,
    List.mapIdx_mapIdx]
  rw [List.mapIdx_eq_mapIdx_iff]
  intro i hi
  -- a region that is stretched once more forgets the first end
  simp only [Region.upTo, Function.comp_apply, position, AnnotatedText.length]
  split <;> split <;> simp [Function.comp_def]

/-! ### What edits keep -/

/-- The text that a draft shows is addressed. -/
def Addressed (d : Draft α) : Prop := d.preview.Addressed d.openRegions d.dominant

theorem Addressed.empty : (Draft.empty : Draft α).Addressed := AnnotatedText.Addressed.empty

theorem Addressed.openRegion (h : d.Addressed) (data : α) : (d.openRegion data).Addressed := by
  have hlength : d.preview.regions.length = d.regions.length := List.length_mapIdx
  have hopened := AnnotatedText.Addressed.openRegion h data
  rw [hlength] at hopened
  unfold Addressed
  rw [preview_openRegion]
  exact hopened

theorem Addressed.closeRegion (h : d.Addressed) (hclose : d.closeRegion = .ok d') :
    d'.Addressed := by
  obtain ⟨i, hopen, hi, hdominant, hpreview⟩ := exists_of_closeRegion hclose
  unfold Addressed at h ⊢
  rw [hpreview, hdominant]
  rw [hopen] at h
  exact h.closeRegion hi

theorem Addressed.openDominant (h : d.Addressed) (hmark : d.openDominant = .ok d') :
    d'.Addressed := by
  obtain ⟨i, hi, hnone, hfree, hopen, hdominant, hpreview⟩ := exists_of_openDominant hmark
  unfold Addressed at h ⊢
  have hlt : i < d.preview.regions.length := h.nested.open_chain.lt_length i hi
  obtain ⟨r, hr, hshown⟩ := Region.exists_of_mapIdx (List.getElem?_eq_getElem hlt)
  rw [hpreview, hopen, hdominant]
  refine AnnotatedText.Addressed.openDominant h hi (List.getElem?_eq_getElem hlt) ?_
  rw [← hshown, Region.dominant_upTo_of_ne (by simp [hnone])]
  exact hfree r hr

theorem Addressed.closeDominant (h : d.Addressed) (hclose : d.closeDominant = .ok d') :
    d'.Addressed := by
  obtain ⟨hopen, hdominant, hpreview⟩ := exists_of_closeDominant hclose
  unfold Addressed at h ⊢
  rw [hpreview, hopen, hdominant]
  exact AnnotatedText.Addressed.closeDominant h

/-- Text is written character by character. -/
theorem Addressed.append (h : d.Addressed) (text : String) : (d.append text).Addressed := by
  unfold Draft.append
  induction text.toList generalizing d with
  | nil => exact h
  | cons c cs ih =>
    refine ih ?_
    unfold Addressed
    rw [preview_push]
    exact AnnotatedText.Addressed.push h c

/-- An edit that is carried out keeps a draft addressed. -/
theorem Addressed.apply (h : d.Addressed) {edit : Edit α} (happly : d.apply edit = .ok d') :
    d'.Addressed := by
  cases edit with
  | openRegion data =>
    cases happly
    exact h.openRegion data
  | closeRegion => exact h.closeRegion happly
  | openDominant => exact h.openDominant happly
  | closeDominant => exact h.closeDominant happly
  | append text =>
    cases happly
    exact h.append text
  | appendDominant text =>
    obtain ⟨opened, hopened, hclosed⟩ := Except.bind_eq_ok.mp happly
    exact ((h.openDominant hopened).append text).closeDominant hclosed

/-! ### Edits in place -/

theorem outcome_openRegion (data : α) (d : Draft α) :
    outcome (InPlace.openRegion data) d = (.ok (), d.openRegion data) := by
  unfold InPlace.openRegion
  simp only [outcome_bind, Mutation.outcome_get, Mutation.outcome_modify]
  simp [Draft.openRegion]

theorem outcome_closeRegion (d : Draft α) :
    outcome InPlace.closeRegion d = settled d (d.closeRegion.map (Prod.mk ())) := by
  unfold InPlace.closeRegion Draft.closeRegion
  rw [outcome_bind, Mutation.outcome_get]
  cases hopen : d.openRegions with
  | nil =>
    simp only [hopen]
    rfl
  | cons i outer =>
    simp only [hopen]
    by_cases hi : d.dominant = some i
    · simp only [if_pos hi]
      rfl
    · simp only [if_neg hi]
      rfl

theorem outcome_openDominant (d : Draft α) :
    outcome InPlace.openDominant d = settled d (d.openDominant.map (Prod.mk ())) := by
  unfold InPlace.openDominant Draft.openDominant
  rw [outcome_bind, Mutation.outcome_get]
  cases hopen : d.openRegions with
  | nil =>
    simp only [hopen]
    rfl
  | cons i outer =>
    simp only [hopen]
    split
    · rfl
    · simp only [outcome_bind, Mutation.outcome_modify, hopen]
      rfl

/-- The span is forgotten before the check, but where the check fails there was none. -/
theorem outcome_closeDominant (d : Draft α) :
    outcome InPlace.closeDominant d = settled d (d.closeDominant.map (Prod.mk ())) := by
  unfold InPlace.closeDominant Draft.closeDominant
  simp only [outcome_bind, Mutation.outcome_get, Mutation.outcome_modify]
  cases hdominant : d.dominant with
  | none =>
    have hsame : { d with dominant := none } = d := by rw [← hdominant]
    simp only [hsame]
    rfl
  | some i => rfl

theorem outcome_pushAll (cs : List Char) (d : Draft α) :
    outcome (InPlace.pushAll cs) d = (.ok (), cs.foldl push d) := by
  induction cs generalizing d with
  | nil => rfl
  | cons c cs ih =>
    unfold InPlace.pushAll
    simp only [outcome_bind, Mutation.outcome_modify, ih]
    rfl

/-- An edit in place has the result of the edit, and one that is refused changes nothing. -/
theorem outcome_perform (edit : Edit α) (d : Draft α) :
    outcome (InPlace.perform edit) d = settled d ((d.apply edit).map (Prod.mk ())) := by
  cases edit with
  | openRegion data => exact outcome_openRegion data d
  | closeRegion => exact outcome_closeRegion d
  | openDominant => exact outcome_openDominant d
  | closeDominant => exact outcome_closeDominant d
  | append text => exact outcome_pushAll text.toList d
  | appendDominant text =>
    unfold InPlace.perform Draft.apply
    rw [outcome_bind, outcome_openDominant]
    cases hopened : d.openDominant with
    | error e => rfl
    | ok opened =>
      -- the span that was just opened is there to be closed
      obtain ⟨i, -, -, -, -, hdominant, -⟩ := exists_of_openDominant hopened
      have hclosed : ∃ closed, (opened.append text).closeDominant = .ok closed := by
        simp [Draft.closeDominant, hdominant]
      obtain ⟨closed, hclosed⟩ := hclosed
      show outcome (InPlace.pushAll text.toList >>= fun _ => InPlace.closeDominant) opened = _
      rw [outcome_bind, outcome_pushAll]
      show outcome InPlace.closeDominant (opened.append text) = _
      rw [outcome_closeDominant, hclosed]
      show (Except.ok (), closed) = settled d (((opened.append text).closeDominant).map (Prod.mk ()))
      rw [hclosed]
      rfl

/-- Every draft that attempts at edits lead to is addressed. -/
theorem Addressed.attemptAll (h : d.Addressed) (edits : List (Edit α)) :
    (d.attemptAll edits).Addressed := by
  unfold Draft.attemptAll
  induction edits generalizing d with
  | nil => exact h
  | cons edit edits ih =>
    refine ih ?_
    show Addressed (outcome (InPlace.perform edit) d).2
    rw [outcome_perform]
    cases happly : d.apply edit with
    | ok d' => exact h.apply happly
    | error e => exact h

/-- A draft that can be finished is shown as the text that it becomes. -/
theorem finish_eq_ok {t : AnnotatedText α} (h : d.finish = .ok t) :
    d.openRegions = [] ∧ d.dominant = none ∧ t = d.preview := by
  unfold finish at h
  split at h
  · cases h
  · rename_i hdominant
    split at h
    · rename_i hopen
      cases h
      have hopen' : d.openRegions = [] := List.isEmpty_iff.mp hopen
      have hdominant' : d.dominant = none := by simpa using hdominant
      refine ⟨hopen', hdominant', ?_⟩
      simp only [preview, hopen', hdominant', AnnotatedText.mk.injEq, true_and]
      apply List.ext_getElem?
      intro i
      rw [List.getElem?_mapIdx]
      cases d.regions[i]? <;> rfl
    · cases h

end Draft

end NaturalDeduction
