import NaturalDeduction.Proofs.AnnotatedText.Draft

/-! # Addressing is exact

    Whatever edits are attempted, a text that can be finished in the end answers
    all questions about its characters as its spans say (`Exact`): which region
    owns a character, which one is the innermost around it, and what the
    characters of a span are. The regions form a forest, with spans that are one
    inside the other along the parents or apart from each other.
-/

namespace NaturalDeduction

namespace AnnotatedText

variable {α : Type} {t : AnnotatedText α}

/-- Region `i` is the parent of region `j`, or the parent of that one, and so on. -/
def Around (t : AnnotatedText α) (i j : Nat) : Prop :=
  ∃ js, Region.Chain t.regions (j :: js) ∧ i ∈ js

/-- Region `i` covers an offset, and all others that do so are less deep. -/
def Deepest (t : AnnotatedText α) (offset i : Nat) (r : Region α) : Prop :=
  t.regions[i]? = some r ∧ r.span.contains offset = true ∧
    ∀ (j : Nat) r', t.regions[j]? = some r' → r'.span.contains offset = true → j ≠ i →
      r'.depth < r.depth

/-- What a text says of its regions and characters is what its spans say. -/
structure Exact (t : AnnotatedText α) : Prop where
  /-- Parents come earlier. -/
  parent_lt : ∀ (i : Nat) r p, t.regions[i]? = some r → r.parent = some p → p < i
  /-- The depth is the number of regions on the way up from the parent. -/
  depth_eq : ∀ (i : Nat) r, t.regions[i]? = some r →
    ∃ js, Region.Chain t.regions (i :: js) ∧ r.depth = js.length
  span_le : ∀ r ∈ t.regions, r.span.start ≤ r.span.stop ∧ r.span.stop ≤ t.length
  within_parent : ∀ (i : Nat) r p, t.regions[i]? = some r → r.parent = some p →
    ∃ r', t.regions[p]? = some r' ∧ r.span.Within r'.span
  /-- Two spans are one inside the other along the parents, or apart. -/
  nested_or_apart : ∀ (i j : Nat) r r', i ≠ j → t.regions[i]? = some r → t.regions[j]? = some r' →
    (t.Around i j ∧ r'.span.Within r.span) ∨ (t.Around j i ∧ r.span.Within r'.span) ∨
      r.span.stop ≤ r'.span.start ∨ r'.span.stop ≤ r.span.start
  dominant_within : ∀ r ∈ t.regions, ∀ s, r.dominant = some s →
    s.start ≤ s.stop ∧ s.Within r.span
  /-- Dominant spans of different regions have no offset in common. -/
  dominant_apart : ∀ (i j : Nat) r r' s s', i ≠ j → t.regions[i]? = some r →
    t.regions[j]? = some r' → r.dominant = some s → r'.dominant = some s' →
      ∀ offset, ¬ (s.contains offset = true ∧ s'.contains offset = true)
  owner_iff : ∀ offset i, t.ownerIndexAt? offset = some i ↔
    ∃ r s, t.regions[i]? = some r ∧ r.dominant = some s ∧ s.contains offset = true
  enclosing_iff : ∀ offset r, t.enclosingAt? offset = some r ↔ ∃ i, t.Deepest offset i r
  enclosing_none_iff : ∀ offset, t.enclosingAt? offset = none ↔
    ∀ r ∈ t.regions, ¬ r.span.contains offset = true
  /-- No index is looked up that is not there. -/
  in_range : ∀ cell ∈ t.cells, ∀ i, cell.owner = some i ∨ cell.enclosing = some i →
    i < t.regions.length
  /-- Something is noted for every character. -/
  length_eq : t.length = t.text.toList.length
  /-- Every span can be cut out, and gives the characters at its offsets. -/
  slice?_eq : ∀ s : Span, t.slice? s = some (String.ofList (s.characters t.text.toList))

namespace Addressed

variable (h : t.Addressed [] none)

include h

theorem getElem?_cells_of_contains {i offset : Nat} {r : Region α} (hr : t.regions[i]? = some r)
    (hcontains : r.span.contains offset = true) : ∃ cell, t.cells[offset]? = some cell := by
  have hstop := (h.nested.span_le i r hr).2
  rw [Span.contains_iff] at hcontains
  have hlt : offset < t.cells.length := by
    show offset < t.length
    omega
  exact ⟨_, List.getElem?_eq_getElem hlt⟩

theorem owner_iff (offset i : Nat) : t.ownerIndexAt? offset = some i ↔
    ∃ r s, t.regions[i]? = some r ∧ r.dominant = some s ∧ s.contains offset = true := by
  unfold ownerIndexAt?
  constructor
  · intro howner
    obtain ⟨cell, hcell, howner⟩ := Option.bind_eq_some_iff.mp howner
    obtain ⟨r, hr, s, hs, hcontains⟩ := ((h.located offset cell hcell).owner_iff i).mp howner
    exact ⟨r, s, hr, hs, hcontains⟩
  · rintro ⟨r, s, hr, hs, hcontains⟩
    -- a dominant span lies inside its region, and that inside the text
    have hwithin := (h.dominant_within i r s hr hs).2
    have hcovers : r.span.contains offset = true := by
      rw [Span.contains_iff] at hcontains ⊢
      have := hwithin.1
      have := hwithin.2
      omega
    obtain ⟨cell, hcell⟩ := h.getElem?_cells_of_contains hr hcovers
    rw [hcell]
    exact ((h.located offset cell hcell).owner_iff i).mpr ⟨r, hr, s, hs, hcontains⟩

/-- The chain of regions around a character gives the innermost one. -/
theorem enclosing_cases (offset : Nat) :
    (t.enclosingAt? offset = none ∧ ∀ r ∈ t.regions, ¬ r.span.contains offset = true) ∨
      ∃ i r, t.enclosingAt? offset = some r ∧ t.Deepest offset i r := by
  cases hcell : t.cells[offset]? with
  | none =>
    refine .inl ⟨by simp [enclosingAt?, hcell], ?_⟩
    intro r hr hcontains
    obtain ⟨i, hi⟩ := List.getElem?_of_mem hr
    obtain ⟨cell, hcell'⟩ := h.getElem?_cells_of_contains hi hcontains
    rw [hcell] at hcell'
    cases hcell'
  | some cell =>
    obtain ⟨js, hchain, hhead, hmem⟩ := (h.located offset cell hcell).enclosing_chain
    cases js with
    | nil =>
      refine .inl ⟨by simp [enclosingAt?, hcell, ← hhead], ?_⟩
      intro r hr hcontains
      obtain ⟨i, hi⟩ := List.getElem?_of_mem hr
      cases (hmem i r hi).mp hcontains
    | cons i js =>
      have hi : i < t.regions.length := hchain.lt_length i List.mem_cons_self
      obtain ⟨r, hr⟩ : ∃ r, t.regions[i]? = some r := ⟨_, List.getElem?_eq_getElem hi⟩
      refine .inr ⟨i, r, by simp [enclosingAt?, hcell, ← hhead, hr], hr, ?_, ?_⟩
      · exact (hmem i r hr).mpr List.mem_cons_self
      · -- the other regions of the chain have shorter chains of their own
        intro j r' hr' hcontains hne
        have hj : j ∈ js := List.mem_of_ne_of_mem hne ((hmem j r' hr').mp hcontains)
        obtain ⟨ks, hks, hsuffix⟩ := hchain.2.exists_of_mem hj
        obtain ⟨js', hjs', hdepth⟩ := h.nested.depth_eq i r hr
        obtain ⟨ks', hks', hdepth'⟩ := h.nested.depth_eq j r' hr'
        have hlength := hsuffix.length_le
        rw [hdepth, hdepth', hjs'.unique hchain, hks'.unique hks]
        exact hlength

theorem nested_or_apart {i j : Nat} {r r' : Region α} (hij : i < j) (hr : t.regions[i]? = some r)
    (hr' : t.regions[j]? = some r') :
    (t.Around i j ∧ r'.span.Within r.span) ∨ r.span.stop ≤ r'.span.start := by
  obtain ⟨js, hchain, -⟩ := h.nested.depth_eq j r' hr'
  rcases h.nested.inside_or_behind i j r r' js hij hr hr' hchain with ⟨hi, hwithin⟩ | ⟨-, hbehind⟩
  · exact .inl ⟨⟨js, hchain, hi⟩, hwithin⟩
  · exact .inr hbehind

theorem within_parent {i p : Nat} {r : Region α} (hr : t.regions[i]? = some r)
    (hp : r.parent = some p) : ∃ r', t.regions[p]? = some r' ∧ r.span.Within r'.span := by
  obtain ⟨js, hchain, -⟩ := h.nested.depth_eq i r hr
  have hhead : js.head? = some p := by
    have hparent := hchain.1
    rw [hr, Option.map_some, hp] at hparent
    exact (Option.some.inj hparent).symm
  have hmem : p ∈ js := List.mem_of_head? hhead
  have hlt : p < t.regions.length := hchain.2.lt_length p hmem
  obtain ⟨r', hr'⟩ : ∃ r', t.regions[p]? = some r' := ⟨_, List.getElem?_eq_getElem hlt⟩
  refine ⟨r', hr', ?_⟩
  rcases h.nested.inside_or_behind p i r' r js (h.nested.parent_lt i r p hr hp) hr' hr hchain with
    ⟨-, hwithin⟩ | ⟨hnot, -⟩
  · exact hwithin
  · exact absurd hmem hnot

theorem in_range {cell : Cell} (hcell : cell ∈ t.cells) {i : Nat}
    (hi : cell.owner = some i ∨ cell.enclosing = some i) : i < t.regions.length := by
  obtain ⟨k, hk⟩ := List.getElem?_of_mem hcell
  have hlocated := h.located k cell hk
  rcases hi with howner | henclosing
  · obtain ⟨r, hr, -⟩ := (hlocated.owner_iff i).mp howner
    exact (List.getElem?_eq_some_iff.mp hr).1
  · obtain ⟨js, hchain, hhead, -⟩ := hlocated.enclosing_chain
    exact hchain.lt_length i (List.mem_of_head? (hhead.trans henclosing))

/-- With nothing open, what is addressed is exact. -/
theorem toExact : t.Exact := by
  constructor
  case parent_lt => exact h.nested.parent_lt
  case depth_eq => exact h.nested.depth_eq
  case span_le =>
    intro r hr
    obtain ⟨i, hi⟩ := List.getElem?_of_mem hr
    exact h.nested.span_le i r hi
  case within_parent => exact fun i r p hr hp => h.within_parent hr hp
  case nested_or_apart =>
    intro i j r r' hne hr hr'
    rcases Nat.lt_or_gt_of_ne hne with hij | hij
    · rcases h.nested_or_apart hij hr hr' with hnested | hapart
      · exact .inl hnested
      · exact .inr (.inr (.inl hapart))
    · rcases h.nested_or_apart hij hr' hr with hnested | hapart
      · exact .inr (.inl hnested)
      · exact .inr (.inr (.inr hapart))
  case dominant_within =>
    intro r hr s hs
    obtain ⟨i, hi⟩ := List.getElem?_of_mem hr
    exact h.dominant_within i r s hi hs
  case dominant_apart =>
    intro i j r r' s s' hne hr hr' hs hs' offset hboth
    -- the character would have two owners
    have hi := (h.owner_iff offset i).mpr ⟨r, s, hr, hs, hboth.1⟩
    have hj := (h.owner_iff offset j).mpr ⟨r', s', hr', hs', hboth.2⟩
    exact hne (Option.some.inj (hi.symm.trans hj))
  case owner_iff => exact h.owner_iff
  case enclosing_iff =>
    intro offset r
    rcases h.enclosing_cases offset with ⟨hnone, hall⟩ | ⟨i, r₀, hsome, hdeepest⟩
    · rw [hnone]
      refine iff_of_false nofun ?_
      rintro ⟨i, hr, hcontains, -⟩
      exact hall r (List.mem_of_getElem? hr) hcontains
    · rw [hsome]
      constructor
      · intro hr
        cases hr
        exact ⟨i, hdeepest⟩
      · -- two deepest regions would each be less deep than the other
        rintro ⟨j, hr, hcontains, hless⟩
        by_cases hij : j = i
        · subst hij
          exact congrArg some (Option.some.inj (hdeepest.1.symm.trans hr))
        · have hless₁ := hless i r₀ hdeepest.1 hdeepest.2.1 (Ne.symm hij)
          have hless₂ := hdeepest.2.2 j r hr hcontains hij
          omega
  case enclosing_none_iff =>
    intro offset
    rcases h.enclosing_cases offset with ⟨hnone, hall⟩ | ⟨i, r, hsome, hr, hcontains, -⟩
    · exact iff_of_true hnone hall
    · rw [hsome]
      exact iff_of_false nofun fun hall => hall r (List.mem_of_getElem? hr) hcontains
  case in_range => exact fun cell hcell i hi => h.in_range hcell hi
  case length_eq => exact h.aligned.length_eq
  case slice?_eq => exact h.aligned.slice?_eq

end Addressed

end AnnotatedText

namespace Draft

open Mutation (outcome)

variable {α : Type}

/-- **Addressing is exact for every program of edits.** An edit that is refused leaves the draft as
    it was. If the draft can be finished after any attempts at edits, then the regions of the text
    form a forest with nested spans, and the owner of a character, the innermost region around it
    and the characters of a span are what the spans say. -/
theorem addressing_exact (edits : List (Edit α)) :
    (∀ (d : Draft α) edit e, (outcome (InPlace.perform edit) d).1 = .error e →
      (outcome (InPlace.perform edit) d).2 = d) ∧
    ∀ t, (Draft.empty.attemptAll edits).finish = .ok t → t.Exact := by
  constructor
  · intro d edit e herror
    rw [outcome_perform] at herror ⊢
    cases happly : d.apply edit with
    | ok d' =>
      rw [happly] at herror
      cases herror
    | error e' => rfl
  · intro t hfinish
    obtain ⟨hopen, hdominant, rfl⟩ := finish_eq_ok hfinish
    have haddressed := Addressed.attemptAll Addressed.empty edits
    unfold Addressed at haddressed
    rw [hopen, hdominant] at haddressed
    exact haddressed.toExact

/-- A dominant span that ends inside a region opened meanwhile, and two edits that are refused. -/
def sampleEdits : List (Edit String) :=
  [.closeRegion, .openRegion "outer", .append "(", .openDominant, .append "é",
    .openRegion "inner", .append "∧", .closeRegion, .append "∨", .openRegion "last", .append "¬",
    .closeDominant, .closeDominant, .appendDominant "β", .closeRegion, .append ")", .closeRegion]

/-- The first edit is refused; the text is finished, and its signs belong to the outer region. -/
theorem addressing_exact_sampleEdits :
    ((outcome (InPlace.perform .closeRegion) (Draft.empty : Draft String)).1 =
        .error .noOpenRegion ∧
      (outcome (InPlace.perform .closeRegion) (Draft.empty : Draft String)).2 = Draft.empty) ∧
    ∃ t, (Draft.empty.attemptAll sampleEdits).finish = .ok t ∧ t.text = "(é∧∨¬β)" ∧
      t.regions.map Region.dominant = [some ⟨1, 5⟩, none, some ⟨5, 6⟩] ∧ t.Exact := by
  obtain ⟨hrefused, hexact⟩ := addressing_exact sampleEdits
  exact ⟨⟨rfl, hrefused _ _ _ rfl⟩, _, rfl, rfl, rfl, hexact _ rfl⟩

end Draft

end NaturalDeduction
