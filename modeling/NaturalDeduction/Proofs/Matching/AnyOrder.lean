import Mathlib.Data.List.Forall2
import Mathlib.Data.List.Nodup
import NaturalDeduction.Proofs.Matching.Complete

/-! # Matching in any order takes the first assignment

    An assignment gives each template a form of its own: a list of positions,
    one for each template, in which every position of the forms stands once.
    The search goes through the assignments in lexicographic order without
    looking at all of them, and returns the bindings of the first one that any
    substitution makes true (`assign_first`).

    It must not give up a branch in which an assignment is left. It does not,
    because all bindings of a branch are forced: whatever substitution makes
    the rest of an assignment true agrees with them, and so the rest of the
    branch is searched with success (`assign_complete`).

    During the search some forms are taken away. The forms that are left keep
    their positions as numbers in a pool.
-/

namespace NaturalDeduction

/-! ### Taking members out -/

theorem map_fst_picks {α : Type} (xs : List α) : (picks xs).map Prod.fst = xs := by
  induction xs with
  | nil => rfl
  | cons x xs ih =>
    rw [picks, List.map_cons, List.map_map]
    exact congrArg (x :: ·) ih

/-- A member is taken out at one place, and the list closes there. -/
theorem mem_picks_iff {α : Type} {xs : List α} {pick : α × List α} :
    pick ∈ picks xs ↔
      ∃ before after, xs = before ++ pick.1 :: after ∧ pick.2 = before ++ after := by
  induction xs generalizing pick with
  | nil => simp [picks]
  | cons x xs ih =>
    rw [picks, List.mem_cons, List.mem_map]
    constructor
    · intro h
      rcases h with rfl | ⟨⟨y, ys⟩, hmem, rfl⟩
      · exact ⟨[], xs, rfl, rfl⟩
      · obtain ⟨before, after, hxs, hys⟩ := ih.mp hmem
        refine ⟨x :: before, after, ?_, ?_⟩
        · rw [hxs, List.cons_append]
        · exact congrArg (x :: ·) hys
    · intro h
      obtain ⟨before, after, hxs, hrest⟩ := h
      obtain ⟨y, ys⟩ := pick
      cases before with
      | nil =>
        obtain ⟨rfl, rfl⟩ := List.cons.inj hxs
        exact .inl (congrArg (x, ·) hrest)
      | cons z before =>
        obtain ⟨rfl, htail⟩ := List.cons.inj hxs
        refine .inr ⟨(y, before ++ after), ih.mpr ⟨before, after, htail, rfl⟩, ?_⟩
        exact congrArg (y, ·) hrest.symm

theorem sublist_of_mem_picks {α : Type} {xs : List α} {pick : α × List α} (h : pick ∈ picks xs) :
    pick.2.Sublist xs := by
  obtain ⟨before, after, hxs, hrest⟩ := mem_picks_iff.mp h
  rw [hxs, hrest]
  exact (List.sublist_cons_self _ _).append_left before

/-- Members are taken out in the order in which they stand in the list. -/
theorem rel_of_picks_eq {α : Type} {R : α → α → Prop} {xs : List α} (hxs : xs.Pairwise R)
    {front back : List (α × List α)} {pick pick' : α × List α}
    (h : picks xs = front ++ pick :: back) (hback : pick' ∈ back) : R pick.1 pick'.1 := by
  rw [← map_fst_picks xs, h, List.map_append, List.map_cons, List.pairwise_append] at hxs
  exact List.rel_of_pairwise_cons hxs.2.1 (List.mem_map_of_mem hback)

theorem picks_map {α β : Type} (g : α → β) (xs : List α) :
    picks (xs.map g) = (picks xs).map fun pick => (g pick.1, pick.2.map g) := by
  induction xs with
  | nil => rfl
  | cons x xs ih =>
    rw [List.map_cons, picks, picks, ih, List.map_cons, List.map_map, List.map_map]
    rfl

namespace Form

/-! ### Assignments -/

/-- Under `σ` the templates become the forms in the given order: each template becomes the form at
    the position that stands for it. Every position stands for one template. -/
structure Assigned (σ : Substitution) (templates forms : List Form) (order : List Nat) : Prop where
  perm : order.Perm (List.range forms.length)
  becomes : List.Forall₂ (fun t j => forms[j]? = some (σ.applyForm t)) templates order

/-- Under `σ` each template in turn becomes a form that it takes out of the pool. The numbers of the
    forms are listed as they are taken. -/
inductive Takes (σ : Substitution) : List Form → List (Form × Nat) → List Nat → Prop where
  | nil (pool : List (Form × Nat)) : Takes σ [] pool []
  | cons {t : Form} {ts : List Form} {pool rest : List (Form × Nat)} {j : Nat} {order : List Nat} :
    ((σ.applyForm t, j), rest) ∈ picks pool → Takes σ ts rest order → Takes σ (t :: ts) pool (j :: order)

variable {σ τ b : Substitution} {t : Form} {ts templates forms : List Form}
  {pool rest left : List (Form × Nat)} {order order' : List Nat} {j : Nat}

theorem Assigned.length_eq (h : Assigned σ templates forms order) :
    templates.length = forms.length := by
  rw [h.becomes.length_eq, h.perm.length_eq, List.length_range]

/-- What is taken is a part of the pool, and any such part can be taken. -/
theorem takes_iff :
    Takes σ ts pool order ↔
      order.length = ts.length ∧ ∃ left, pool.Perm ((ts.map σ.applyForm).zip order ++ left) := by
  constructor
  · intro h
    induction h with
    | nil pool => exact ⟨rfl, pool, .refl _⟩
    | cons hpick _ ih =>
      obtain ⟨hlength, left, hperm⟩ := ih
      refine ⟨congrArg (· + 1) hlength, left, ?_⟩
      exact (perm_of_mem_picks hpick).trans (hperm.cons _)
  · intro h
    obtain ⟨hlength, left, hperm⟩ := h
    induction ts generalizing pool order with
    | nil =>
      rw [List.eq_nil_of_length_eq_zero hlength]
      exact .nil pool
    | cons t ts ih =>
      obtain ⟨j, order, rfl⟩ := List.exists_cons_of_length_eq_add_one hlength
      have hmem : (σ.applyForm t, j) ∈ pool := hperm.mem_iff.mpr List.mem_cons_self
      obtain ⟨before, after, rfl⟩ := List.append_of_mem hmem
      refine .cons (mem_picks_iff.mpr ⟨before, after, rfl, rfl⟩) (ih (Nat.succ.inj hlength) ?_)
      -- the form stands first on one side, and somewhere in the pool on the other
      exact (List.perm_middle.symm.trans hperm).cons_inv

theorem mem_zip_applyForm {f : Form} :
    (f, j) ∈ (ts.map σ.applyForm).zip order ↔ ∃ t, (t, j) ∈ ts.zip order ∧ σ.applyForm t = f := by
  rw [List.zip_map_left, List.mem_map]
  constructor
  · intro h
    obtain ⟨⟨t, k⟩, hmem, heq⟩ := h
    obtain ⟨hf, rfl⟩ := Prod.mk.inj heq
    exact ⟨t, hmem, hf⟩
  · intro h
    obtain ⟨t, hmem, rfl⟩ := h
    exact ⟨(t, j), hmem, rfl⟩

theorem map_snd_zip_applyForm (h : order.length = ts.length) :
    ((ts.map σ.applyForm).zip order).map Prod.snd = order :=
  List.map_snd_zip (by rw [List.length_map]; exact Nat.le_of_eq h)

/-- As many templates as there are forms take all of them. -/
theorem Takes.perm (hlength : templates.length = forms.length)
    (h : Takes σ templates forms.zipIdx order) :
    forms.zipIdx.Perm ((templates.map σ.applyForm).zip order) := by
  obtain ⟨hcount, left, hperm⟩ := takes_iff.mp h
  have hleft : left = [] := by
    have htotal := hperm.length_eq
    simp only [List.length_zipIdx, List.length_append, List.length_zip, List.length_map] at htotal
    exact List.eq_nil_of_length_eq_zero (by omega)
  rwa [hleft, List.append_nil] at hperm

theorem Takes.assigned (hlength : templates.length = forms.length)
    (h : Takes σ templates forms.zipIdx order) : Assigned σ templates forms order := by
  obtain ⟨hcount, _⟩ := takes_iff.mp h
  have hperm := h.perm hlength
  refine ⟨?_, List.forall₂_iff_zip.mpr ⟨hcount.symm, ?_⟩⟩
  · have hpositions := hperm.map Prod.snd
    rw [List.zipIdx_map_snd, map_snd_zip_applyForm hcount, ← List.range_eq_range'] at hpositions
    exact hpositions.symm
  · intro t j hmem
    exact List.mem_zipIdx_iff_getElem?.mp
      (hperm.mem_iff.mpr (mem_zip_applyForm.mpr ⟨t, hmem, rfl⟩))

theorem Assigned.takes (h : Assigned σ templates forms order) :
    Takes σ templates forms.zipIdx order := by
  obtain ⟨hcount, hbecomes⟩ := List.forall₂_iff_zip.mp h.becomes
  have hnumbers := map_snd_zip_applyForm (σ := σ) hcount.symm
  refine takes_iff.mpr ⟨hcount.symm, [], ?_⟩
  rw [List.append_nil, List.perm_ext_iff_of_nodup]
  · -- both lists hold the forms with their positions
    intro pair
    obtain ⟨f, j⟩ := pair
    rw [List.mem_zipIdx_iff_getElem?, mem_zip_applyForm]
    constructor
    · intro hf
      have hj : j ∈ order := by
        rw [h.perm.mem_iff, List.mem_range]
        exact (List.getElem?_eq_some_iff.mp hf).1
      rw [← hnumbers] at hj
      obtain ⟨⟨f', j'⟩, hmem, rfl⟩ := List.mem_map.mp hj
      obtain ⟨t, ht, _⟩ := mem_zip_applyForm.mp hmem
      exact ⟨t, ht, Option.some.inj ((hbecomes ht).symm.trans hf)⟩
    · intro hf
      obtain ⟨t, ht, rfl⟩ := hf
      exact hbecomes ht
  · refine List.Nodup.of_map Prod.snd ?_
    rw [List.zipIdx_map_snd]
    exact List.nodup_range'
  · refine List.Nodup.of_map Prod.snd ?_
    rw [hnumbers]
    exact h.perm.nodup_iff.mpr List.nodup_range

/-- The templates can become the forms of a pool in some order. -/
theorem exists_takes_of_perm (h : (pool.map Prod.fst).Perm (ts.map σ.applyForm)) :
    ∃ order, Takes σ ts pool order := by
  induction ts generalizing pool with
  | nil => exact ⟨[], .nil pool⟩
  | cons t ts ih =>
    have hmem : σ.applyForm t ∈ pool.map Prod.fst := h.mem_iff.mpr List.mem_cons_self
    obtain ⟨⟨f, j⟩, hfj, rfl⟩ := List.mem_map.mp hmem
    obtain ⟨before, after, rfl⟩ := List.append_of_mem hfj
    have hrest : ((before ++ after).map Prod.fst).Perm (ts.map σ.applyForm) := by
      rw [List.map_append, List.map_cons] at h
      rw [List.map_append]
      exact (List.perm_middle.symm.trans h).cons_inv
    obtain ⟨order, horder⟩ := ih hrest
    exact ⟨j :: order, .cons (mem_picks_iff.mpr ⟨before, after, rfl, rfl⟩) horder⟩

/-- There is an assignment exactly if the forms are the instances of the templates, up to order. -/
theorem exists_assigned_iff :
    (∃ order, Assigned σ templates forms order) ↔ forms.Perm (templates.map σ.applyForm) := by
  constructor
  · intro h
    obtain ⟨order, h⟩ := h
    have hperm := (h.takes.perm h.length_eq).map Prod.fst
    have hcount : (templates.map σ.applyForm).length ≤ order.length := by
      rw [List.length_map]
      exact Nat.le_of_eq h.becomes.length_eq
    rwa [List.zipIdx_map_fst, List.map_fst_zip hcount] at hperm
  · intro h
    rw [← List.zipIdx_map_fst 0 forms] at h
    obtain ⟨order, horder⟩ := exists_takes_of_perm h
    rw [List.zipIdx_map_fst] at h
    exact ⟨order, horder.assigned (by rw [h.length_eq, List.length_map])⟩

/-! ### The search -/

/-- No form that the first template can take lets the others be matched. -/
theorem assign_cons_eq_none :
    assign (t :: ts) (pool.map Prod.fst) b = none ↔
      ∀ pick ∈ picks pool, ∀ ρ, t.matchWith pick.1.1 b = (true, ρ) →
        assign ts (pick.2.map Prod.fst) ρ = none := by
  rw [assign, picks_map, List.findSome?_map, List.findSome?_eq_none_iff]
  refine forall₂_congr fun pick _ => ?_
  simp only [Function.comp_apply]
  split
  · next τ hτ => simp [hτ]
  · next τ hτ => simp [hτ]

/-- The first template takes a form that lets the others be matched, and none before it does. -/
theorem exists_of_assign_cons (h : assign (t :: ts) (pool.map Prod.fst) b = some τ) :
    ∃ front pick back ρ, picks pool = front ++ pick :: back ∧
      t.matchWith pick.1.1 b = (true, ρ) ∧ assign ts (pick.2.map Prod.fst) ρ = some τ ∧
      ∀ pick' ∈ front, ∀ ρ', t.matchWith pick'.1.1 b = (true, ρ') →
        assign ts (pick'.2.map Prod.fst) ρ' = none := by
  rw [assign, picks_map, List.findSome?_map] at h
  obtain ⟨front, pick, back, hpicks, hpick, hfront⟩ := List.findSome?_eq_some_iff.mp h
  simp only [Function.comp_apply] at hpick hfront
  split at hpick
  · next ρ hρ =>
    refine ⟨front, pick, back, ρ, hpicks, hρ, hpick, ?_⟩
    intro pick' hmem ρ' hρ'
    have hnone := hfront pick' hmem
    rwa [hρ'] at hnone
  · cases hpick

/-- An assignment that some substitution makes true is not missed. -/
theorem assign_complete (htakes : Takes σ ts pool order) (hb : σ.Respects b) :
    ∃ τ, assign ts (pool.map Prod.fst) b = some τ := by
  induction htakes generalizing b with
  | nil pool => exact ⟨b, rfl⟩
  | @cons t ts pool rest j order hpick _ ih =>
    obtain ⟨ρ, hmatch, hρ⟩ := matchWith_complete t _ b hb rfl
    obtain ⟨τ, hτ⟩ := ih hρ
    by_contra hnone
    have hrest := assign_cons_eq_none.mp (Option.eq_none_iff_forall_ne_some.mpr (not_exists.mp hnone))
      _ hpick ρ hmatch
    rw [hτ] at hrest
    cases hrest

/-- The search returns the bindings of the first assignment that any substitution makes true. Every
    substitution that makes this one true agrees with them. -/
theorem assign_first (hpool : pool.Pairwise fun x y => x.2 < y.2)
    (h : assign ts (pool.map Prod.fst) b = some τ) :
    ∃ order, Takes τ ts pool order ∧ ∀ σ order', σ.Respects b → Takes σ ts pool order' →
      (order = order' ∧ σ.Respects τ) ∨ List.Lex (· < ·) order order' := by
  induction ts generalizing pool b with
  | nil =>
    rw [assign, Option.some.injEq] at h
    refine ⟨[], .nil pool, ?_⟩
    intro σ order' hb htakes
    cases htakes
    exact .inl ⟨rfl, h ▸ hb⟩
  | cons t ts ih =>
    obtain ⟨front, ⟨⟨f, j⟩, rest⟩, back, ρ, hpicks, hmatch, hassign, hfront⟩ :=
      exists_of_assign_cons h
    have hpick : ((f, j), rest) ∈ picks pool := by
      rw [hpicks]
      exact List.mem_append_right _ List.mem_cons_self
    have hascending := hpool.sublist (sublist_of_mem_picks hpick)
    obtain ⟨order, htakes, hleast⟩ := ih hascending hassign
    obtain ⟨_, hbinds, hbecomes⟩ := matchWith_sound t f b ρ hmatch
    obtain ⟨hextends, _⟩ := assign_sound hassign
    have hfirst : τ.applyForm t = f := by
      rw [Substitution.applyForm_of_extends hextends t hbinds, hbecomes]
    refine ⟨j :: order, .cons (hfirst ▸ hpick) htakes, ?_⟩
    intro σ order' hb htakes'
    cases htakes' with
    | @cons _ _ _ rest' j' order' hpick' htakes' =>
      obtain ⟨ρ', hmatch', hρ'⟩ := matchWith_complete t _ b hb rfl
      rw [hpicks] at hpick'
      rcases List.mem_append.mp hpick' with hbefore | hafter
      · -- a form before the one that was taken would have been taken
        obtain ⟨τ', hassign'⟩ := assign_complete htakes' hρ'
        have hnone := hfront _ hbefore ρ' hmatch'
        rw [hassign'] at hnone
        cases hnone
      · rcases List.mem_cons.mp hafter with hsame | hback
        · -- the same form: the two differ in the rest only, if at all
          obtain ⟨⟨rfl, rfl⟩, rfl⟩ : (σ.applyForm t = f ∧ j' = j) ∧ rest' = rest := by
            simpa only [Prod.mk.injEq] using hsame
          obtain rfl : ρ' = ρ := (Prod.mk.inj (hmatch'.symm.trans hmatch)).2
          rcases hleast σ order' hρ' htakes' with ⟨rfl, hτ⟩ | hlex
          · exact .inl ⟨rfl, hτ⟩
          · exact .inr (.cons hlex)
        · exact .inr (.rel (rel_of_picks_eq hpool hpicks hback))

theorem assign_onlyBinds (h : assign ts forms b = some τ) : τ.OnlyBinds b (varsAll ts) := by
  induction ts generalizing forms b with
  | nil =>
    rw [assign, Option.some.injEq] at h
    exact h ▸ .refl b _
  | cons t ts ih =>
    rw [assign] at h
    obtain ⟨⟨f, rest⟩, _, hf⟩ := List.exists_of_findSome?_eq_some h
    dsimp only at hf
    split at hf
    · next ρ hρ =>
      have hfirst := matchWith_onlyBinds t f b
      rw [hρ] at hfirst
      exact hfirst.trans (ih hf)
    · cases hf

/-! ### Matching -/

theorem matchInAnyOrder_of_length_ne (h : templates.length ≠ forms.length) :
    matchInAnyOrder templates forms b = .error (.arity templates.length forms.length) := by
  rw [matchInAnyOrder, if_neg h]

theorem matchInAnyOrder_eq_ok_iff :
    matchInAnyOrder templates forms b = .ok τ ↔
      templates.length = forms.length ∧ assign templates forms b = some τ := by
  by_cases hlength : templates.length = forms.length
  · rw [matchInAnyOrder, if_pos hlength, search_eq_assign]
    cases assign templates forms b <;> simp [hlength]
  · rw [matchInAnyOrder_of_length_ne hlength]
    simp [hlength]

theorem matchInAnyOrder_eq_noMapping_iff (hlength : templates.length = forms.length) :
    matchInAnyOrder templates forms b = .error .noMapping ↔ assign templates forms b = none := by
  rw [matchInAnyOrder, if_pos hlength, search_eq_assign]
  cases assign templates forms b <;> simp

/-- A match succeeds if the templates can become the forms in some order. -/
theorem matchInAnyOrder_complete (hseed : σ.Extends b) (h : Assigned σ templates forms order) :
    ∃ τ, matchInAnyOrder templates forms b = .ok τ := by
  obtain ⟨τ, hτ⟩ := assign_complete h.takes hseed.respects
  rw [List.zipIdx_map_fst] at hτ
  exact ⟨τ, matchInAnyOrder_eq_ok_iff.mpr ⟨h.length_eq, hτ⟩⟩

theorem matchInAnyOrder_contains (h : matchInAnyOrder templates forms b = .ok τ) (x : String) :
    τ.contains x = true ↔ b.contains x = true ∨ x ∈ varsAll templates := by
  obtain ⟨_, hassign⟩ := matchInAnyOrder_eq_ok_iff.mp h
  obtain ⟨hextends, hbinds, _⟩ := assign_sound hassign
  rw [Substitution.contains_iff, Substitution.contains_iff]
  constructor
  · intro hx
    obtain ⟨f, hf⟩ := hx
    exact (assign_onlyBinds hassign x f hf).imp_left fun hb => ⟨f, hb⟩
  · intro hx
    rcases hx with ⟨f, hf⟩ | hmem
    · exact ⟨f, hextends x f hf⟩
    · exact hbinds x hmem

/-- The bindings of a match are those of the first assignment that any substitution makes true. -/
theorem matchInAnyOrder_first (h : matchInAnyOrder templates forms b = .ok τ) :
    ∃ order, Assigned τ templates forms order ∧
      ∀ σ order', σ.Extends b → Assigned σ templates forms order' →
        (order = order' ∧ σ.Respects τ) ∨ List.Lex (· < ·) order order' := by
  obtain ⟨hlength, hassign⟩ := matchInAnyOrder_eq_ok_iff.mp h
  rw [← List.zipIdx_map_fst 0 forms] at hassign
  have hascending : forms.zipIdx.Pairwise fun x y => x.2 < y.2 := by
    rw [← List.pairwise_map, List.zipIdx_map_snd]
    exact List.pairwise_lt_range'
  obtain ⟨order, htakes, hleast⟩ := assign_first hascending hassign
  refine ⟨order, htakes.assigned hlength, ?_⟩
  intro σ order' hseed h'
  exact hleast σ order' hseed.respects h'.takes

/-- **Matching in any order is exact.** Lists of different lengths are refused. Otherwise a match is
    found exactly if some substitution that extends the seed makes the templates into the forms in
    some order. The match extends the seed, binds besides only the variables of the templates, and
    makes the templates into the forms in the lexicographically first order in which any
    substitution that extends the seed does; with this order there are no other bindings. -/
theorem matchInAnyOrder_exact (templates forms : List Form) (seed : Substitution) :
    (templates.length ≠ forms.length →
      matchInAnyOrder templates forms seed = .error (.arity templates.length forms.length)) ∧
    (templates.length = forms.length →
      ((∃ τ, matchInAnyOrder templates forms seed = .ok τ) ↔
        ∃ σ order, σ.Extends seed ∧ Assigned σ templates forms order) ∧
      (matchInAnyOrder templates forms seed = .error .noMapping ↔
        ¬ ∃ σ order, σ.Extends seed ∧ Assigned σ templates forms order)) ∧
    ∀ τ, matchInAnyOrder templates forms seed = .ok τ →
      τ.Extends seed ∧
      (∀ x, τ.contains x = true ↔ seed.contains x = true ∨ x ∈ varsAll templates) ∧
      ∃ order, Assigned τ templates forms order ∧
        ∀ σ order', σ.Extends seed → Assigned σ templates forms order' →
          (order = order' ∧ σ.Respects τ) ∨ List.Lex (· < ·) order order' := by
  refine ⟨matchInAnyOrder_of_length_ne, ?_, ?_⟩
  · intro hlength
    have hfound : (∃ τ, matchInAnyOrder templates forms seed = .ok τ) ↔
        ∃ σ order, σ.Extends seed ∧ Assigned σ templates forms order := by
      constructor
      · intro h
        obtain ⟨τ, hτ⟩ := h
        obtain ⟨order, horder, _⟩ := matchInAnyOrder_first hτ
        exact ⟨τ, order, (matchInAnyOrder_sound hτ).1, horder⟩
      · intro h
        obtain ⟨σ, order, hseed, horder⟩ := h
        exact matchInAnyOrder_complete hseed horder
    refine ⟨hfound, ?_⟩
    -- with as many templates as forms, the only failure is that there is no match
    rw [← hfound, matchInAnyOrder_eq_noMapping_iff hlength, Option.eq_none_iff_forall_ne_some,
      not_exists]
    simp only [matchInAnyOrder_eq_ok_iff, hlength, true_and, ne_eq]
  · intro τ hτ
    exact ⟨(matchInAnyOrder_sound hτ).1, matchInAnyOrder_contains hτ, matchInAnyOrder_first hτ⟩

/-- The conditional of two formulas. -/
def sampleConditional (f g : Formula) : Formula := .app ⟨"Conditional", .infixed⟩ [f, g]

/-- The premises of modus ponens, with the conditional last. -/
def sampleTemplates : List Form :=
  [.formula (.schema "P"), .formula (sampleConditional (.schema "P") (.schema "Q"))]

/-- Two conditionals, the second of which is the antecedent of the first. -/
def sampleForms : List Form :=
  let antecedent := sampleConditional (.proposition "A") (.proposition "B")
  [.formula (sampleConditional antecedent (.proposition "C")), .formula antecedent]

/-- A binding of another variable. -/
def sampleSeed : Substitution := .ofList [("R", .proposition "D")]

/-- The first template could take either form, but the second one needs the first form. -/
theorem matchInAnyOrder_exact_sampleForms :
    ∃ τ, matchInAnyOrder sampleTemplates sampleForms sampleSeed = .ok τ ∧
      τ.get? "Q" = some (.proposition "C") ∧ τ.Extends sampleSeed ∧
      (∀ x, τ.contains x = true ↔
        sampleSeed.contains x = true ∨ x ∈ varsAll sampleTemplates) ∧
      ∃ order, Assigned τ sampleTemplates sampleForms order ∧
        ∀ σ order', σ.Extends sampleSeed → Assigned σ sampleTemplates sampleForms order' →
          (order = order' ∧ σ.Respects τ) ∨ List.Lex (· < ·) order order' :=
  ⟨_, rfl, rfl, (matchInAnyOrder_exact sampleTemplates sampleForms sampleSeed).2.2 _ rfl⟩

end Form

end NaturalDeduction
