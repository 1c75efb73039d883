import NaturalDeduction.AnnotatedText.Basic
import Mathlib.Tactic.Common

/-! # Nested regions

    Regions are opened and closed like brackets, so the regions around a region
    are those that were open when it was opened (`Chain`). Two regions are one
    inside the other along such a chain, or one ends before the other starts.

    While a text is being written, this holds of the regions as they would be
    if all were closed now: an open region reaches to the end of the text. Then
    closing a region changes nothing, a new region is empty, and a character
    stretches the regions that are open (`Nested.openRegion`, `Nested.stretch`).
-/

namespace NaturalDeduction

namespace Span

/-- The first span lies inside the second. -/
def Within (s outer : Span) : Prop := outer.start ≤ s.start ∧ s.stop ≤ outer.stop

theorem contains_iff {s : Span} {offset : Nat} :
    s.contains offset = true ↔ s.start ≤ offset ∧ offset < s.stop := by
  simp [contains]

end Span

namespace Region

variable {α : Type} {regions regions' : List (Region α)} {region : Region α}
  {i j stop stop' : Nat} {js ks openRegions : List Nat} {g : Nat → Region α → Region α}

/-! ### The regions around a region -/

/-- A region, its parent, the parent of that one and so on, up to a region without a parent. -/
def Chain (regions : List (Region α)) : List Nat → Prop
  | [] => True
  | i :: outer => regions[i]?.map Region.parent = some outer.head? ∧ Chain regions outer

/-- Chains depend on nothing but the parents. -/
theorem Chain.mono (h : Chain regions js)
    (hparents : ∀ (i : Nat) p, regions[i]?.map Region.parent = some p →
      regions'[i]?.map Region.parent = some p) : Chain regions' js := by
  induction js with
  | nil => trivial
  | cons i js ih => exact ⟨hparents i _ h.1, ih h.2⟩

theorem Chain.append (h : Chain regions js) (new : List (Region α)) :
    Chain (regions ++ new) js := by
  refine h.mono ?_
  intro i p hp
  obtain ⟨r, hr, hparent⟩ := Option.map_eq_some_iff.mp hp
  have hi : i < regions.length := (List.getElem?_eq_some_iff.mp hr).1
  rw [List.getElem?_append_left hi]
  exact hp

theorem chain_mapIdx_iff (hparent : ∀ i r, (g i r).parent = r.parent) :
    Chain (regions.mapIdx g) js ↔ Chain regions js := by
  have hsame : ∀ i : Nat, (regions.mapIdx g)[i]?.map Region.parent = regions[i]?.map Region.parent := by
    intro i
    rw [List.getElem?_mapIdx, Option.map_map]
    exact congrArg (Option.map · regions[i]?) (funext (hparent i))
  constructor
  · exact fun h => h.mono (fun i p hp => (hsame i).symm.trans hp)
  · exact fun h => h.mono (fun i p hp => (hsame i).trans hp)

/-- A changed region comes from one with the same index. -/
theorem exists_of_mapIdx {r' : Region α} (h : (regions.mapIdx g)[i]? = some r') :
    ∃ r, regions[i]? = some r ∧ g i r = r' := by
  rw [List.getElem?_mapIdx] at h
  exact Option.map_eq_some_iff.mp h

/-- There is one chain from a region. -/
theorem Chain.unique (hj : Chain regions (i :: js)) (hk : Chain regions (i :: ks)) : js = ks := by
  -- both chains go on with the same parent, or end together
  induction js generalizing i ks with
  | nil =>
    have hhead : ([] : List Nat).head? = ks.head? := Option.some.inj (hj.1.symm.trans hk.1)
    exact (List.head?_eq_none_iff.mp hhead.symm).symm
  | cons j js ih =>
    have hhead : (j :: js).head? = ks.head? := Option.some.inj (hj.1.symm.trans hk.1)
    obtain ⟨ks', rfl⟩ := List.head?_eq_some_iff.mp hhead.symm
    rw [ih hj.2 hk.2]

theorem Chain.lt_length (h : Chain regions js) : ∀ i ∈ js, i < regions.length := by
  induction js with
  | nil => simp
  | cons j js ih =>
    intro i hi
    rcases List.mem_cons.mp hi with rfl | hi
    · obtain ⟨r, hr, -⟩ := Option.map_eq_some_iff.mp h.1
      exact (List.getElem?_eq_some_iff.mp hr).1
    · exact ih h.2 i hi

/-- Every region of a chain starts a chain of its own, which is shorter than the whole unless the
    region is the first one. -/
theorem Chain.exists_of_mem (h : Chain regions js) (hi : i ∈ js) :
    ∃ ks, Chain regions (i :: ks) ∧ (i :: ks) <:+ js := by
  induction js with
  | nil => cases hi
  | cons j js ih =>
    rcases List.mem_cons.mp hi with rfl | hi
    · exact ⟨js, h, List.suffix_rfl⟩
    · obtain ⟨ks, hks, hsuffix⟩ := ih h.2 hi
      exact ⟨ks, hks, hsuffix.trans (List.suffix_cons j js)⟩

/-! ### Spans -/

/-- The region that is opened next: empty and inside the innermost open one. -/
def next (openRegions : List Nat) (stop : Nat) (data : α) : Region α :=
  ⟨⟨stop, stop⟩, none, openRegions.head?, openRegions.length, data⟩

/-- With a new region, every region is one that was there or the new one. -/
theorem getElem?_concat_cases {new r : Region α} (hr : (regions ++ [new])[i]? = some r) :
    (i < regions.length ∧ regions[i]? = some r) ∨ (i = regions.length ∧ r = new) := by
  by_cases hi : i < regions.length
  · rw [List.getElem?_append_left hi] at hr
    exact .inl ⟨hi, hr⟩
  · have hlt : i < (regions ++ [new]).length := (List.getElem?_eq_some_iff.mp hr).1
    have hi' : i = regions.length := by
      rw [List.length_append, List.length_singleton] at hlt
      omega
    subst hi'
    rw [List.getElem?_concat_length] at hr
    exact .inr ⟨rfl, (Option.some.inj hr).symm⟩

/-- The regions of a text with `stop` characters, some of which are open and reach to its end. -/
structure Nested (regions : List (Region α)) (openRegions : List Nat) (stop : Nat) : Prop where
  parent_lt : ∀ (i : Nat) r p, regions[i]? = some r → r.parent = some p → p < i
  /-- The depth is the number of regions around a region. -/
  depth_eq : ∀ (i : Nat) r, regions[i]? = some r →
    ∃ js, Chain regions (i :: js) ∧ r.depth = js.length
  span_le : ∀ (i : Nat) r, regions[i]? = some r → r.span.start ≤ r.span.stop ∧ r.span.stop ≤ stop
  /-- Of two regions the later one lies inside the other, if that is around it, or behind it. -/
  inside_or_behind : ∀ (i j : Nat) r r' js, i < j → regions[i]? = some r → regions[j]? = some r' →
    Chain regions (j :: js) →
      (i ∈ js ∧ r'.span.Within r.span) ∨ (i ∉ js ∧ r.span.stop ≤ r'.span.start)
  open_chain : Chain regions openRegions
  open_stop : ∀ i ∈ openRegions, ∀ r, regions[i]? = some r → r.span.stop = stop
  /-- What was opened since an open region lies inside it. -/
  open_around : ∀ i ∈ openRegions, ∀ j js, i < j → Chain regions (j :: js) → i ∈ js

namespace Nested

theorem empty : Nested ([] : List (Region α)) [] 0 := by
  constructor <;> simp [Chain]

/-- What is around an open region is open. -/
theorem mem_open_of_chain (h : Nested regions openRegions stop) (hj : j ∈ openRegions)
    (hchain : Chain regions (j :: js)) (hi : i ∈ js) : i ∈ openRegions := by
  obtain ⟨ks, hks, hsuffix⟩ := h.open_chain.exists_of_mem hj
  rw [hchain.unique hks] at hi
  exact hsuffix.subset (List.mem_cons_of_mem j hi)

theorem chain_next (h : Nested regions openRegions stop) (data : α) :
    Chain (regions ++ [next openRegions stop data]) (regions.length :: openRegions) := by
  refine ⟨?_, h.open_chain.append _⟩
  rw [List.getElem?_concat_length]
  rfl

/-- The chain of a region that was there is the one that it had. -/
theorem chain_of_append (h : Nested regions openRegions stop) {new : List (Region α)}
    (hi : i < regions.length) (hchain : Chain (regions ++ new) (i :: js)) :
    Chain regions (i :: js) := by
  obtain ⟨ks, hks, -⟩ := h.depth_eq i _ (List.getElem?_eq_getElem hi)
  rw [hchain.unique (hks.append new)]
  exact hks

theorem openRegion (h : Nested regions openRegions stop) (data : α) :
    Nested (regions ++ [next openRegions stop data]) (regions.length :: openRegions) stop := by
  have hnext := h.chain_next data
  have hopen := h.open_chain.lt_length
  constructor
  case parent_lt =>
    intro i r p hr hp
    rcases getElem?_concat_cases hr with ⟨_, hr⟩ | ⟨rfl, rfl⟩
    · exact h.parent_lt i r p hr hp
    · -- the parent of the new region is open, so it was there before
      exact hopen p (List.mem_of_head? hp)
  case depth_eq =>
    intro i r hr
    rcases getElem?_concat_cases hr with ⟨_, hr⟩ | ⟨rfl, rfl⟩
    · obtain ⟨js, hjs, hdepth⟩ := h.depth_eq i r hr
      exact ⟨js, hjs.append _, hdepth⟩
    · exact ⟨openRegions, hnext, rfl⟩
  case span_le =>
    intro i r hr
    rcases getElem?_concat_cases hr with ⟨_, hr⟩ | ⟨rfl, rfl⟩
    · exact h.span_le i r hr
    · exact ⟨Nat.le_refl stop, Nat.le_refl stop⟩
  case inside_or_behind =>
    intro i j r r' js hij hr hr' hchain
    rcases getElem?_concat_cases hr' with ⟨hj, hr'⟩ | ⟨rfl, rfl⟩
    · rw [List.getElem?_append_left (Nat.lt_trans hij hj)] at hr
      exact h.inside_or_behind i j r r' js hij hr hr' (h.chain_of_append hj hchain)
    · rw [List.getElem?_append_left hij] at hr
      rw [hchain.unique hnext]
      obtain ⟨hle, hstop⟩ := h.span_le i r hr
      by_cases hi : i ∈ openRegions
      · -- an open region reaches to the place where the new one is opened
        have hstop' := h.open_stop i hi r hr
        exact .inl ⟨hi, Nat.le_trans hle hstop, Nat.le_of_eq hstop'.symm⟩
      · exact .inr ⟨hi, hstop⟩
  case open_chain => exact hnext
  case open_stop =>
    intro i hi r hr
    rcases getElem?_concat_cases hr with ⟨hlt, hr⟩ | ⟨rfl, rfl⟩
    · rcases List.mem_cons.mp hi with rfl | hi
      · exact absurd hlt (Nat.lt_irrefl _)
      · exact h.open_stop i hi r hr
    · rfl
  case open_around =>
    intro i hi j js hij hchain
    have hj : j < (regions ++ [next openRegions stop data]).length :=
      hchain.lt_length j List.mem_cons_self
    rw [List.length_append, List.length_singleton] at hj
    rcases List.mem_cons.mp hi with rfl | hi
    · -- no region is later than the new one
      omega
    · by_cases hlast : j = regions.length
      · subst hlast
        rw [hchain.unique hnext]
        exact hi
      · exact h.open_around i hi j js hij (h.chain_of_append (by omega) hchain)

theorem closeRegion (h : Nested regions (i :: openRegions) stop) :
    Nested regions openRegions stop :=
  { h with
    open_chain := h.open_chain.2
    open_stop := fun j hj => h.open_stop j (List.mem_cons_of_mem i hj)
    open_around := fun j hj => h.open_around j (List.mem_cons_of_mem i hj) }

/-- The text grows: the open regions reach to its new end, and the others stay as they are. -/
theorem stretch (h : Nested regions openRegions stop) (hle : stop ≤ stop')
    (hparent : ∀ i r, (g i r).parent = r.parent) (hdepth : ∀ i r, (g i r).depth = r.depth)
    (hspan : ∀ i r, regions[i]? = some r →
      (g i r).span = if i ∈ openRegions then ⟨r.span.start, stop'⟩ else r.span) :
    Nested (regions.mapIdx g) openRegions stop' := by
  constructor
  case parent_lt =>
    intro i r' p hr' hp
    obtain ⟨r, hr, rfl⟩ := exists_of_mapIdx hr'
    exact h.parent_lt i r p hr ((hparent i r).symm.trans hp)
  case depth_eq =>
    intro i r' hr'
    obtain ⟨r, hr, rfl⟩ := exists_of_mapIdx hr'
    obtain ⟨js, hjs, hlength⟩ := h.depth_eq i r hr
    exact ⟨js, (chain_mapIdx_iff hparent).mpr hjs, (hdepth i r).trans hlength⟩
  case span_le =>
    intro i r' hr'
    obtain ⟨r, hr, rfl⟩ := exists_of_mapIdx hr'
    obtain ⟨hstart, hstop⟩ := h.span_le i r hr
    rw [hspan i r hr]
    split
    · exact ⟨show r.span.start ≤ stop' by omega, Nat.le_refl stop'⟩
    · exact ⟨hstart, Nat.le_trans hstop hle⟩
  case inside_or_behind =>
    intro i j r₁ r₂ js hij hr₁ hr₂ hchain
    obtain ⟨r, hr, rfl⟩ := exists_of_mapIdx hr₁
    obtain ⟨r', hr', rfl⟩ := exists_of_mapIdx hr₂
    have hchain' := (chain_mapIdx_iff hparent).mp hchain
    obtain ⟨hstart, hstop⟩ := h.span_le j r' hr'
    rw [hspan i r hr, hspan j r' hr']
    by_cases hi : i ∈ openRegions
    · -- the later region lies inside the open one, and stays there when both are stretched
      have hmem := h.open_around i hi j js hij hchain'
      obtain ⟨-, hwithin⟩ | ⟨hnot, -⟩ := h.inside_or_behind i j r r' js hij hr hr' hchain'
      · refine .inl ⟨hmem, ?_⟩
        rw [if_pos hi]
        split
        · exact ⟨hwithin.1, Nat.le_refl stop'⟩
        · exact ⟨hwithin.1, Nat.le_trans hstop hle⟩
      · exact absurd hmem hnot
    · rw [if_neg hi]
      by_cases hj : j ∈ openRegions
      · -- a closed region is not around an open one
        have hnot : i ∉ js := fun hmem => hi (h.mem_open_of_chain hj hchain' hmem)
        obtain ⟨hmem, -⟩ | ⟨-, hbehind⟩ := h.inside_or_behind i j r r' js hij hr hr' hchain'
        · exact absurd hmem hnot
        · rw [if_pos hj]
          exact .inr ⟨hnot, hbehind⟩
      · rw [if_neg hj]
        exact h.inside_or_behind i j r r' js hij hr hr' hchain'
  case open_chain => exact (chain_mapIdx_iff hparent).mpr h.open_chain
  case open_stop =>
    intro i hi r' hr'
    obtain ⟨r, hr, rfl⟩ := exists_of_mapIdx hr'
    rw [hspan i r hr, if_pos hi]
  case open_around =>
    intro i hi j js hij hchain
    exact h.open_around i hi j js hij ((chain_mapIdx_iff hparent).mp hchain)

end Nested

end Region

end NaturalDeduction
