import NaturalDeduction.Derivation.InPlace
import NaturalDeduction.Proofs.Derivation.Undo

/-! # Changes in place are all or nothing

    An operation that returns a new state cannot leave half of its work behind
    when it fails; work in place can. Each change of a derivation in place is
    compared with the operation that returns the derivation after it: the two
    have the same result, and where that is a failure, the work in place has
    changed nothing (`settled`).

    For three of the changes this holds of every derivation, since all checks
    come before the first change. Taking back a step throws away the derivation
    first. It cannot fail after that if the derivation has grown, because then
    carrying out the events again is never refused.
-/

namespace NaturalDeduction

namespace Derivation

open Mutation (outcome outcome_bind)

variable {d d' : Derivation}

/-! ### Adding steps, opening and closing scopes -/

theorem outcome_addStep (step : Step) (d : Derivation) :
    outcome (InPlace.addStep step) d = settled d (d.addStep step) := by
  unfold InPlace.addStep Derivation.addStep
  rw [outcome_bind, Mutation.outcome_get]
  by_cases hschematic : step.formula.schemaVariables ≠ []
  · simp only [if_pos hschematic]
    rfl
  · simp only [if_neg hschematic, outcome_bind, Mutation.outcome_ofExcept]
    cases d.checkVisible step.citations with
    | error e => rfl
    | ok u => simp [settled]

theorem outcome_openScope (d : Derivation) :
    outcome InPlace.openScope d = settled d (d.openScope.map (Prod.mk ())) := by
  unfold InPlace.openScope Derivation.openScope
  rw [outcome_bind, Mutation.outcome_get]
  by_cases hfar : d.depth ≠ d.lastLevel ∧ d.depth + 1 ≠ d.lastLevel
  · simp only [if_pos hfar]
    rfl
  · by_cases hdeep : d.depthLimit ≠ 0 ∧ d.depth + 1 > d.depthLimit
    · simp only [if_neg hfar, if_pos hdeep]
      rfl
    · simp only [if_neg hfar, if_neg hdeep]
      rfl

theorem outcome_closeScope (d : Derivation) :
    outcome InPlace.closeScope d = settled d (d.closeScope.map (Prod.mk ())) := by
  unfold InPlace.closeScope Derivation.closeScope
  rw [outcome_bind, Mutation.outcome_get]
  by_cases htop : d.depth = 0
  · -- the outermost scope is the only one without another around it
    have hpop : d.scopes.pop? = none := by
      rw [Scopes.pop?, List.eq_nil_of_length_eq_zero htop]
    simp only [if_pos htop, hpop]
    rfl
  · obtain ⟨enclosing, outer, houter⟩ : ∃ enclosing outer, d.scopes.outer = enclosing :: outer :=
      List.exists_cons_of_ne_nil fun hnil => htop (by simp [depth, Scopes.depth, hnil])
    have hpop : d.scopes.pop? = some (d.scopes.current, ⟨enclosing, outer⟩) := by
      rw [Scopes.pop?, houter]
    simp only [if_neg htop, hpop]
    by_cases hfar : d.depth ≠ d.lastLevel ∧ d.depth ≠ d.lastLevel + 1
    · simp only [if_pos hfar]
      rfl
    · simp only [if_neg hfar]
      cases Scope.range? d.scopes.current <;> rfl

/-! ### Carrying out events again -/

theorem outcome_replay (event : Event) (d : Derivation) :
    outcome (InPlace.replay event) d = settled d ((d.replay event).map (Prod.mk ())) := by
  cases event with
  | addStep step =>
    show outcome (InPlace.addStep step >>= fun _ => pure ()) d = _
    simp only [outcome_bind, outcome_addStep, replay]
    cases d.addStep step <;> rfl
  | openScope => exact outcome_openScope d
  | closeScope => exact outcome_closeScope d

/-- Events that are never refused lead to the same derivation in place. -/
theorem outcome_replayAll {events : List Event} (h : d.replayAll events = .ok d') :
    outcome (InPlace.replayAll events) d = (.ok (), d') := by
  induction events generalizing d with
  | nil =>
    cases h
    rfl
  | cons event events ih =>
    unfold replayAll at h
    rw [List.foldlM_cons] at h
    cases hevent : d.replay event with
    | error e =>
      rw [hevent] at h
      cases h
    | ok d₁ =>
      rw [hevent] at h
      show outcome (InPlace.replay event >>= fun _ => InPlace.replayAll events) d = _
      rw [outcome_bind, outcome_replay, hevent]
      exact ih h

/-! ### Taking back a step -/

/-- Nothing is cut off where no event adds a step. -/
theorem lastStepAt?_of_cut_none {events : List Event}
    (h : cutAtLastStep events.reverse = none) : InPlace.lastStepAt? events = none := by
  have hnone : ∀ es, cutAtLastStep es = none → ∀ e ∈ es, InPlace.addsStep e = false := by
    intro es hes
    induction es with
    | nil => simp
    | cons e es ih =>
      cases e with
      | addStep step => cases hes
      | openScope => simpa [InPlace.addsStep] using ih hes
      | closeScope => simpa [InPlace.addsStep] using ih hes
  unfold InPlace.lastStepAt?
  rw [List.findIdx?_eq_none_iff.mpr fun e he => by simp [hnone _ h e he]]
  rfl

/-- What is cut off starts with the last event that adds a step. -/
theorem exists_of_cutAtLastStep {events earlier : List Event} {step : Step}
    (h : cutAtLastStep events = some (step, earlier)) :
    ∃ later, events = later ++ .addStep step :: earlier ∧
      ∀ e ∈ later, InPlace.addsStep e = false := by
  induction events with
  | nil => cases h
  | cons e es ih =>
    cases e with
    | addStep step' =>
      cases h
      exact ⟨[], rfl, by simp⟩
    | openScope =>
      obtain ⟨later, rfl, hlater⟩ := ih h
      exact ⟨.openScope :: later, rfl, by simpa [InPlace.addsStep] using hlater⟩
    | closeScope =>
      obtain ⟨later, rfl, hlater⟩ := ih h
      exact ⟨.closeScope :: later, rfl, by simpa [InPlace.addsStep] using hlater⟩

/-- The place where the last step was added, with the step there and the events before it. -/
theorem lastStepAt?_of_cut_some {events earlier : List Event} {step : Step}
    (h : cutAtLastStep events.reverse = some (step, earlier)) :
    InPlace.lastStepAt? events = some earlier.length ∧
      events[earlier.length]? = some (.addStep step) ∧
      events.take earlier.length = earlier.reverse := by
  obtain ⟨later, hsplit, hlater⟩ := exists_of_cutAtLastStep h
  have hevents : events = earlier.reverse ++ .addStep step :: later.reverse := by
    rw [← List.reverse_reverse events, hsplit]
    simp
  have hfind : events.reverse.findIdx? InPlace.addsStep = some later.length := by
    rw [hsplit, List.findIdx?_append,
      List.findIdx?_eq_none_iff.mpr fun e he => by simp [hlater e he]]
    simp [List.findIdx?_cons, InPlace.addsStep]
  have hlength : events.length - 1 - later.length = earlier.length := by
    rw [hevents]
    simp only [List.length_append, List.length_cons, List.length_reverse]
    omega
  refine ⟨?_, ?_, ?_⟩
  · rw [InPlace.lastStepAt?, hfind, Option.map_some, hlength]
  · rw [hevents, List.getElem?_append_right (by simp)]
    simp
  · rw [hevents]
    exact List.take_left' (by simp)

/-- In a derivation that has grown, taking back a step in place is never refused after the events
    were taken out. -/
theorem outcome_deleteStep {allowed : Derivation → Step → Prop} {past : List Derivation}
    (h : Grown allowed d past) : outcome InPlace.deleteStep d = settled d d.deleteStep := by
  unfold InPlace.deleteStep
  rw [outcome_bind, Mutation.outcome_get]
  rcases h.cutAtLastStep_events with ⟨_, _, hcut⟩ | ⟨before, _, step, _, hbefore, hlimit, _, hcut⟩
  · simp only [lastStepAt?_of_cut_none hcut, Derivation.deleteStep, hcut]
    rfl
  · obtain ⟨hat, hstep, htake⟩ := lastStepAt?_of_cut_some hcut
    -- the events before the step lead to the derivation before it
    have hreplay := hbefore.replayAll_events
    rw [hlimit] at hreplay
    have hagain := outcome_replayAll hreplay
    rw [List.reverse_reverse] at htake
    simp only [hat, hstep, htake, Derivation.deleteStep, hcut, List.reverse_reverse, hreplay]
    simp only [outcome_bind, Mutation.outcome_modify, Mutation.outcome_set, hagain]
    rfl

end Derivation

end NaturalDeduction
