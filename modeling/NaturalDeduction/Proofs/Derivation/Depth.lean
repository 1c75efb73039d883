import NaturalDeduction.Proofs.Derivation.Brackets
import NaturalDeduction.Proofs.Derivation.Nesting

/-! # Depth of derivations

    A scope is opened or closed only if the depth that results is next to the
    level of the last step. A step is added at the current depth. So the depth
    never strays from the last level by more than one, nor does the level of a
    step from the level of the step before it.

    The depth is also what the events say: the number of scopes that were
    opened less the number of those that were closed, at the end and after any
    front part of the events.
-/

namespace NaturalDeduction

namespace Derivation

open Log

variable {d : Derivation} {step : Step} {enclosing : Scope} {outer : List Scope}

/-! ### Depth after a change -/

@[simp] theorem depth_extend : (d.extend step).depth = d.depth := rfl

@[simp] theorem depth_opened : d.opened.depth = d.depth + 1 := rfl

theorem depth_closedInto (houter : d.scopes.outer = enclosing :: outer) :
    (d.closedInto enclosing outer).depth + 1 = d.depth := by
  simp [closedInto, depth, Scopes.depth, houter]

@[simp] theorem lastLevel_extend : (d.extend step).lastLevel = d.depth := by
  simp [lastLevel, extend]

@[simp] theorem lastLevel_opened : d.opened.lastLevel = d.lastLevel := rfl

@[simp] theorem lastLevel_closedInto : (d.closedInto enclosing outer).lastLevel = d.lastLevel := rfl

/-- The level of the step with the last number is the last level; without steps both are 0. -/
theorem levelAt_length_getD (d : Derivation) :
    (d.levelAt d.steps.length).getD 0 = d.lastLevel := by
  by_cases hnil : d.steps = []
  · simp [levelAt, step?, lastLevel, hnil]
  · rw [levelAt_length hnil, Option.getD_some]

/-! ### Depth and levels -/

/-- Two depths that differ by at most one. -/
def Adjacent (m n : Nat) : Prop := m ≤ n + 1 ∧ n ≤ m + 1

namespace Grown

variable {allowed : Derivation → Step → Prop} {past : List Derivation}

/-- The depth stays next to the level of the last step. -/
theorem adjacent_depth (h : Grown allowed d past) : Adjacent d.lastLevel d.depth := by
  -- the last change alone decides: it was allowed only next to the last level
  cases h with
  | empty limit => exact ⟨Nat.zero_le 1, Nat.zero_le 1⟩
  | addStep _ _ hadd =>
    obtain ⟨_, _, _, rfl⟩ := addStep_eq_ok_iff.mp hadd
    rw [lastLevel_extend, depth_extend]
    exact ⟨Nat.le_succ _, Nat.le_succ _⟩
  | openScope _ hopen =>
    obtain ⟨hnear, _, rfl⟩ := openScope_eq_ok_iff.mp hopen
    rw [lastLevel_opened, depth_opened]
    constructor <;> omega
  | closeScope _ hclose =>
    obtain ⟨_, _, houter, hnear, rfl⟩ := closeScope_eq_ok_iff.mp hclose
    have hdepth := depth_closedInto houter
    rw [lastLevel_closedInto]
    constructor <;> omega

/-- The level of a step is next to that of the step before it, and for the first step next to 0. -/
theorem adjacent_levels (h : Grown allowed d past) {n : Nat} {s : Step}
    (hs : d.step? (n + 1) = some s) : Adjacent ((d.levelAt n).getD 0) s.level := by
  obtain ⟨before, _, added, hb, _, hadd, rfl, _, hsame⟩ := h.exists_before hs
  obtain ⟨_, _, hnumber, _⟩ := addStep_eq_ok_iff.mp hadd
  -- the step before is the last one of the derivation to which the step was added
  have hlevel : d.levelAt n = before.levelAt before.steps.length := by
    have hn : n = before.steps.length := by omega
    rw [levelAt, ← hsame n (Nat.lt_succ_self n), levelAt, hn]
  rw [hlevel, levelAt_length_getD]
  exact hb.adjacent_depth

/-- A limit on the depth is kept. -/
theorem depth_le_limit (h : Grown allowed d past) (hlimit : d.depthLimit ≠ 0) :
    d.depth ≤ d.depthLimit := by
  induction h with
  | empty limit => exact Nat.zero_le limit
  | addStep _ _ hadd ih =>
    obtain ⟨_, _, _, rfl⟩ := addStep_eq_ok_iff.mp hadd
    exact ih hlimit
  | openScope _ hopen _ =>
    obtain ⟨_, hroom, rfl⟩ := openScope_eq_ok_iff.mp hopen
    exact hroom.resolve_left hlimit
  | closeScope _ hclose ih =>
    obtain ⟨_, _, houter, _, rfl⟩ := closeScope_eq_ok_iff.mp hclose
    have hdepth := depth_closedInto houter
    exact Nat.le_trans (by omega) (ih hlimit)

/-- The limit holds for levels as well, since a step is added at the depth of its time. -/
theorem level_le_limit (h : Grown allowed d past) (hlimit : d.depthLimit ≠ 0) {n : Nat} {s : Step}
    (hs : d.step? n = some s) : s.level ≤ d.depthLimit := by
  obtain ⟨before, _, added, hb, _, _, rfl, hsame, _⟩ := h.exists_before hs
  rw [← hsame] at hlimit ⊢
  exact hb.depth_le_limit hlimit

/-! ### Depth and events -/

/-- The depth is the number of scopes that were opened less the number of those that were closed. -/
theorem openings_events (h : Grown allowed d past) :
    openings d.events = closings d.events + d.depth := by
  induction h with
  | empty limit => rfl
  | addStep _ _ hadd ih =>
    obtain ⟨_, _, _, rfl⟩ := addStep_eq_ok_iff.mp hadd
    rw [depth_extend, extend, openings_append, closings_append, ih]
    rfl
  | openScope _ hopen ih =>
    obtain ⟨_, _, rfl⟩ := openScope_eq_ok_iff.mp hopen
    rw [depth_opened, opened, openings_append, closings_append, ih]
    rfl
  | @closeScope d _ _ _ hclose ih =>
    obtain ⟨enclosing, outer, houter, _, rfl⟩ := closeScope_eq_ok_iff.mp hclose
    have hdepth := depth_closedInto houter
    have hopenings : openings (d.closedInto enclosing outer).events = openings d.events := by
      simp [closedInto, isOpening]
    have hclosings : closings (d.closedInto enclosing outer).events = closings d.events + 1 := by
      simp [closedInto, isClosing]
    omega

/-- Every front part of the events is that of a derivation that has grown in the same way. -/
theorem exists_front (h : Grown allowed d past) {es : List Event} (hes : es <+: d.events) :
    ∃ front earlier, Grown allowed front earlier ∧ front.events = es ∧
      front.depthLimit = d.depthLimit := by
  -- a front part is all of the events, or a front part of the events before the last one
  induction h with
  | empty limit => exact ⟨_, _, .empty limit, (List.prefix_nil.mp hes).symm, rfl⟩
  | addStep hd ha hadd ih =>
    have hall := Grown.addStep hd ha hadd
    obtain ⟨_, _, _, rfl⟩ := addStep_eq_ok_iff.mp hadd
    rcases List.prefix_concat_iff.mp hes with rfl | hfront
    · exact ⟨_, _, hall, rfl, rfl⟩
    · exact ih hfront
  | openScope hd hopen ih =>
    have hall := Grown.openScope hd hopen
    obtain ⟨_, _, rfl⟩ := openScope_eq_ok_iff.mp hopen
    rcases List.prefix_concat_iff.mp hes with rfl | hfront
    · exact ⟨_, _, hall, rfl, rfl⟩
    · exact ih hfront
  | closeScope hd hclose ih =>
    have hall := Grown.closeScope hd hclose
    obtain ⟨_, _, _, _, rfl⟩ := closeScope_eq_ok_iff.mp hclose
    rcases List.prefix_concat_iff.mp hes with rfl | hfront
    · exact ⟨_, _, hall, rfl, rfl⟩
    · exact ih hfront

end Grown

/-- **Depth discipline.** In every derivation that can be reached, the first level is at most 1, the
    levels of successive steps differ by at most one, and so do the last level and the depth. In
    every front part of the events no more scopes are closed than opened, and the difference is the
    depth of the derivation that these events lead to. If there is a limit, it holds for the depth
    and for all levels. -/
theorem Reachable.depth_discipline (h : d.Reachable) :
    (∀ s, d.step? 1 = some s → s.level ≤ 1) ∧
    (∀ n s t, d.step? n = some s → d.step? (n + 1) = some t → Adjacent s.level t.level) ∧
    Adjacent d.lastLevel d.depth ∧
    (∀ es, es <+: d.events → ∃ front, (Derivation.empty d.depthLimit).replayAll es = .ok front ∧
      closings es ≤ openings es ∧ openings es - closings es = front.depth) ∧
    (d.depthLimit ≠ 0 → d.depth ≤ d.depthLimit ∧ ∀ s ∈ d.steps, s.level ≤ d.depthLimit) := by
  obtain ⟨past, hhist⟩ := h
  have hg := hhist.grown
  refine ⟨?_, ?_, hg.adjacent_depth, ?_, ?_⟩
  · intro s hs
    exact (hg.adjacent_levels hs).2
  · intro n s t hs ht
    have hlevel : (d.levelAt n).getD 0 = s.level := by rw [levelAt, hs]; rfl
    rw [← hlevel]
    exact hg.adjacent_levels ht
  · intro es hes
    obtain ⟨front, _, hfront, rfl, hlimit⟩ := hg.exists_front hes
    have hcount := hfront.openings_events
    refine ⟨front, ?_, by omega, by omega⟩
    rw [← hlimit]
    exact hfront.replayAll_events
  · intro hlimit
    refine ⟨hg.depth_le_limit hlimit, ?_⟩
    intro s hs
    obtain ⟨n, hn⟩ := List.mem_iff_getElem?.mp hs
    exact hg.level_le_limit hlimit (n := n + 1) hn

/-- With levels 1, 2 and 1 under the limit 2, the last scope that was opened is still open. -/
theorem Reachable.depth_discipline_sampleNested :
    (sampleNested 2).Reachable ∧ (sampleNested 2).steps.map Step.level = [1, 2, 1] ∧
      Adjacent (sampleNested 2).lastLevel (sampleNested 2).depth ∧
        ∀ s ∈ (sampleNested 2).steps, s.level ≤ 2 := by
  have hreach : (sampleNested 2).Reachable := reachable_sampleNested (.inr (Nat.le_refl 2))
  obtain ⟨_, _, hdepth, _, hlimit⟩ := hreach.depth_discipline
  exact ⟨hreach, rfl, hdepth, (hlimit (Nat.succ_ne_zero 1)).2⟩

end Derivation

end NaturalDeduction
