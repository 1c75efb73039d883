import NaturalDeduction.Derivation.Basic

/-! # Taking steps back

    Taking back a step carries out the events before it once more, from a
    derivation without steps. That this gives exactly the derivation from
    before the step was added rests on one fact about every derivation that can
    be reached: carrying out its events gives the derivation itself.

    * **Changes**: what adding a step, opening and closing a scope do, if they
      are not refused.
    * **Growth**: derivations that grow without anything being taken back, each
      with the derivations that stood before its steps. Growth is what proofs
      about derivations use as their induction.
    * **Histories**: all ways to use a derivation, with steps taken back among
      them. Each history reaches a derivation that has grown.
-/

namespace NaturalDeduction

/-- What a closed scope leaves in the scope around it. -/
def Scope.summary (scope : Scope) : Scope :=
  match scope.range? with
  | some (first, last) => [.subproof first last]
  | none => []

namespace Derivation

variable {d d' : Derivation} {step : Step} {number : Nat}

/-! ### Changes -/

/-- The derivation with one more step. -/
def extend (d : Derivation) (step : Step) : Derivation :=
  { d with
    steps := d.steps ++ [{ step with level := d.depth }]
    scopes := d.scopes.record (.step (d.steps.length + 1))
    events := d.events ++ [.addStep { step with level := d.depth }] }

/-- The derivation with one more scope. -/
def opened (d : Derivation) : Derivation :=
  { d with scopes := d.scopes.push, events := d.events ++ [.openScope] }

/-- The derivation with the current scope closed, where `enclosing` and `outer` are the scopes
    around it. -/
def closedInto (d : Derivation) (enclosing : Scope) (outer : List Scope) : Derivation :=
  { d with
    scopes := ⟨enclosing ++ Scope.summary d.scopes.current, outer⟩
    events := d.events ++ [.closeScope] }

theorem checkVisible_eq_ok_iff {citations : List Citation} :
    d.checkVisible citations = .ok () ↔ ∀ c ∈ citations, d.isVisible c = true := by
  unfold checkVisible
  split
  · next c hc =>
    -- `c` is the first citation that cannot be seen
    have hmem := List.mem_of_find?_eq_some hc
    have hnot := List.find?_some hc
    simp only [reduceCtorEq, false_iff]
    intro hall
    simp [hall c hmem] at hnot
  · next hnone => simpa using hnone

/-- A step is added exactly when its formula is concrete and its citations are visible. -/
theorem addStep_eq_ok_iff :
    d.addStep step = .ok (number, d') ↔
      step.formula.schemaVariables = [] ∧ (∀ c ∈ step.citations, d.isVisible c = true) ∧
        number = d.steps.length + 1 ∧ d' = d.extend step := by
  unfold addStep
  by_cases hs : step.formula.schemaVariables = []
  · rw [if_neg (by simpa using hs)]
    cases hv : d.checkVisible step.citations with
    | error e =>
      have hno : ¬ ∀ c ∈ step.citations, d.isVisible c = true := by
        rw [← checkVisible_eq_ok_iff, hv]
        simp
      simp [hno]
    | ok u =>
      have hall := checkVisible_eq_ok_iff.mp hv
      simp only [Except.ok.injEq, Prod.mk.injEq, extend, hs, true_and]
      constructor
      · intro h
        obtain ⟨rfl, rfl⟩ := h
        exact ⟨hall, rfl, rfl⟩
      · intro h
        obtain ⟨_, rfl, rfl⟩ := h
        exact ⟨rfl, rfl⟩
  · simp [hs]

/-- A scope is opened exactly when the current depth is that of the last step or one less, and the
    limit allows it. -/
theorem openScope_eq_ok_iff :
    d.openScope = .ok d' ↔
      (d.depth = d.lastLevel ∨ d.depth + 1 = d.lastLevel) ∧
        (d.depthLimit = 0 ∨ d.depth + 1 ≤ d.depthLimit) ∧ d' = d.opened := by
  unfold openScope
  split
  · next hfar =>
    constructor
    · intro h
      cases h
    · intro h
      have hnear := h.1
      omega
  · next hnear =>
    split
    · next hdeep =>
      constructor
      · intro h
        cases h
      · intro h
        have hlimit := h.2.1
        omega
    · next hlimit =>
      constructor
      · intro h
        exact ⟨by omega, by omega, (Except.ok.inj h).symm⟩
      · intro h
        rw [h.2.2]
        rfl

/-- A scope is closed exactly when it is not the outermost one, and the current depth is that of the
    last step or one more. -/
theorem closeScope_eq_ok_iff :
    d.closeScope = .ok d' ↔
      ∃ enclosing outer, d.scopes.outer = enclosing :: outer ∧
        (d.depth = d.lastLevel ∨ d.depth = d.lastLevel + 1) ∧
          d' = d.closedInto enclosing outer := by
  unfold closeScope Scopes.pop?
  cases ho : d.scopes.outer with
  | nil => simp
  | cons enclosing outer =>
    have hclosed : d.closedInto enclosing outer =
        { d with
          scopes := match Scope.range? d.scopes.current with
            | some (first, last) => Scopes.record ⟨enclosing, outer⟩ (.subproof first last)
            | none => ⟨enclosing, outer⟩
          events := d.events ++ [.closeScope] } := by
      unfold closedInto Scope.summary Scopes.record
      cases Scope.range? d.scopes.current <;> simp
    dsimp only
    split
    · next hfar =>
      constructor
      · intro h
        cases h
      · intro h
        obtain ⟨_, _, _, hnear, _⟩ := h
        omega
    · next hnear =>
      constructor
      · intro h
        exact ⟨enclosing, outer, rfl, by omega, (Except.ok.inj h).symm.trans hclosed.symm⟩
      · intro h
        obtain ⟨e, o, heq, _, rfl⟩ := h
        cases heq
        exact congrArg Except.ok hclosed.symm

/-! ### Growth -/

/-- Derivations that grow by steps that `allowed` admits, with nothing taken back. Listed with each
    are the derivations as they stood just before its steps were added, latest first. -/
inductive Grown (allowed : Derivation → Step → Prop) : Derivation → List Derivation → Prop where
  | empty (limit : Nat) : Grown allowed (.empty limit) []
  | addStep {d d' : Derivation} {past : List Derivation} {step : Step} {number : Nat} :
      Grown allowed d past → allowed d step → d.addStep step = .ok (number, d') →
        Grown allowed d' (d :: past)
  | openScope {d d' : Derivation} {past : List Derivation} :
      Grown allowed d past → d.openScope = .ok d' → Grown allowed d' past
  | closeScope {d d' : Derivation} {past : List Derivation} :
      Grown allowed d past → d.closeScope = .ok d' → Grown allowed d' past

/-- The steps that events say were added, in order. -/
def addedSteps : List Event → List Step
  | [] => []
  | .addStep step :: events => step :: addedSteps events
  | _ :: events => addedSteps events

theorem addedSteps_append (es es' : List Event) :
    addedSteps (es ++ es') = addedSteps es ++ addedSteps es' := by
  induction es with
  | nil => rfl
  | cons e es ih => cases e <;> simp [addedSteps, ih]

theorem replayAll_append_singleton (e : Event) (es : List Event) :
    d.replayAll (es ++ [e]) = d.replayAll es >>= fun d' => d'.replay e := by
  unfold replayAll
  rw [List.foldlM_append]
  cases List.foldlM replay d es with
  | error e' => rfl
  | ok d' => cases h : d'.replay e <;> simp [bind, Except.bind, List.foldlM, h, pure, Except.pure]

/-- Adding a step once more, at the level it was given, is adding the step. -/
theorem replay_addStep (h : d.addStep step = .ok (number, d')) :
    d.replay (.addStep { step with level := d.depth }) = .ok d' := by
  obtain ⟨hs, hv, _, rfl⟩ := addStep_eq_ok_iff.mp h
  have hagain : d.addStep { step with level := d.depth } =
      .ok (d.steps.length + 1, d.extend step) :=
    addStep_eq_ok_iff.mpr ⟨hs, hv, rfl, rfl⟩
  simp [replay, hagain, bind, Except.bind, pure, Except.pure]

namespace Grown

variable {allowed allowed' : Derivation → Step → Prop} {past : List Derivation}

/-- Growth by fewer kinds of steps is growth by more. -/
theorem mono (himp : ∀ d step, allowed d step → allowed' d step) (h : Grown allowed d past) :
    Grown allowed' d past := by
  induction h with
  | empty limit => exact .empty limit
  | addStep _ ha hadd ih => exact .addStep ih (himp _ _ ha) hadd
  | openScope _ hopen ih => exact .openScope ih hopen
  | closeScope _ hclose ih => exact .closeScope ih hclose

/-- The steps are those that the events say were added. -/
theorem steps_eq (h : Grown allowed d past) : d.steps = addedSteps d.events := by
  induction h with
  | empty limit => rfl
  | addStep _ _ hadd ih =>
    obtain ⟨_, _, _, rfl⟩ := addStep_eq_ok_iff.mp hadd
    simp [extend, addedSteps_append, addedSteps, ih]
  | openScope _ hopen ih =>
    obtain ⟨_, _, rfl⟩ := openScope_eq_ok_iff.mp hopen
    simp [opened, addedSteps_append, addedSteps, ih]
  | closeScope _ hclose ih =>
    obtain ⟨_, _, _, _, rfl⟩ := closeScope_eq_ok_iff.mp hclose
    simp [closedInto, addedSteps_append, addedSteps, ih]

/-- Carrying out the events of a derivation gives the derivation. -/
theorem replayAll_events (h : Grown allowed d past) :
    (Derivation.empty d.depthLimit).replayAll d.events = .ok d := by
  -- the events before are carried out by the induction hypothesis, the last one as it was
  induction h with
  | empty limit => rfl
  | addStep _ _ hadd ih =>
    have hagain := replay_addStep hadd
    obtain ⟨_, _, _, rfl⟩ := addStep_eq_ok_iff.mp hadd
    simp only [extend] at hagain ⊢
    rw [replayAll_append_singleton, ih]
    exact hagain
  | openScope _ hopen ih =>
    have hagain := hopen
    obtain ⟨_, _, rfl⟩ := openScope_eq_ok_iff.mp hopen
    simp only [opened] at hagain ⊢
    rw [replayAll_append_singleton, ih]
    exact hagain
  | closeScope _ hclose ih =>
    have hagain := hclose
    obtain ⟨_, _, _, _, rfl⟩ := closeScope_eq_ok_iff.mp hclose
    simp only [closedInto] at hagain ⊢
    rw [replayAll_append_singleton, ih]
    exact hagain

/-- Where the events are cut to take back the last step: before the event that added it, which is
    where the derivation before the step ends. -/
theorem cutAtLastStep_events (h : Grown allowed d past) :
    (past = [] ∧ d.steps = [] ∧ cutAtLastStep d.events.reverse = none) ∨
      ∃ before earlier step, past = before :: earlier ∧ Grown allowed before earlier ∧
        before.depthLimit = d.depthLimit ∧ d.steps = before.steps ++ [step] ∧
          cutAtLastStep d.events.reverse = some (step, before.events.reverse) := by
  induction h with
  | empty limit => exact .inl ⟨rfl, rfl, rfl⟩
  | addStep hd _ hadd _ =>
    obtain ⟨_, _, _, rfl⟩ := addStep_eq_ok_iff.mp hadd
    refine .inr ⟨_, _, _, rfl, hd, rfl, rfl, ?_⟩
    simp [extend, cutAtLastStep]
  | openScope _ hopen ih =>
    obtain ⟨_, _, rfl⟩ := openScope_eq_ok_iff.mp hopen
    -- the new event adds no step, so that the cut goes past it
    simpa [opened, cutAtLastStep] using ih
  | closeScope _ hclose ih =>
    obtain ⟨_, _, _, _, rfl⟩ := closeScope_eq_ok_iff.mp hclose
    simpa [closedInto, cutAtLastStep] using ih

/-- Taking back the last step gives the derivation from before it, and is refused only if there is
    no step. -/
theorem deleteStep_cases (h : Grown allowed d past) :
    (past = [] ∧ d.steps = [] ∧ d.deleteStep = .error .noSteps) ∨
      ∃ before earlier step, past = before :: earlier ∧ Grown allowed before earlier ∧
        d.steps = before.steps ++ [step] ∧ d.deleteStep = .ok (step, before) := by
  rcases h.cutAtLastStep_events with ⟨hp, hs, hcut⟩ | ⟨before, earlier, step, hp, hb, hl, hs, hcut⟩
  · exact .inl ⟨hp, hs, by simp [deleteStep, hcut]⟩
  · refine .inr ⟨before, earlier, step, hp, hb, hs, ?_⟩
    -- the events before the step are those of the derivation before it
    have hreplay := hb.replayAll_events
    rw [hl] at hreplay
    simp [deleteStep, hcut, hreplay, bind, Except.bind, pure, Except.pure]

/-- What is left after taking back a step has grown in the same way. -/
theorem deleteStep (h : Grown allowed d past) (hdel : d.deleteStep = .ok (step, d')) :
    Grown allowed d' past.tail := by
  rcases h.deleteStep_cases with ⟨_, _, hno⟩ | ⟨before, earlier, s, rfl, hb, _, hok⟩
  · rw [hno] at hdel
    cases hdel
  · rw [hok] at hdel
    cases hdel
    exact hb

end Grown

/-! ### Histories -/

/-- What can be reached from a derivation without steps by adding and taking back steps, and by
    opening and closing scopes, in any order. Listed with it are the derivations as they stood just
    before its steps were added, latest first. A change that is refused leaves no trace. -/
inductive History : Derivation → List Derivation → Prop where
  | empty (limit : Nat) : History (.empty limit) []
  | addStep {d d' : Derivation} {past : List Derivation} {step : Step} {number : Nat} :
      History d past → d.addStep step = .ok (number, d') → History d' (d :: past)
  | openScope {d d' : Derivation} {past : List Derivation} :
      History d past → d.openScope = .ok d' → History d' past
  | closeScope {d d' : Derivation} {past : List Derivation} :
      History d past → d.closeScope = .ok d' → History d' past
  | deleteStep {d d' : Derivation} {past : List Derivation} {step : Step} :
      History d past → d.deleteStep = .ok (step, d') → History d' past.tail

/-- Can the derivation be reached from one without steps? -/
def Reachable (d : Derivation) : Prop := ∃ past, History d past

/-- Whatever was taken back in between, a derivation that can be reached has grown. -/
theorem History.grown {past : List Derivation} (h : History d past) :
    Grown (fun _ _ => True) d past := by
  induction h with
  | empty limit => exact .empty limit
  | addStep _ hadd ih => exact .addStep ih trivial hadd
  | openScope _ hopen ih => exact .openScope ih hopen
  | closeScope _ hclose ih => exact .closeScope ih hclose
  | deleteStep _ hdel ih => exact ih.deleteStep hdel

/-- There is one earlier derivation for each step. -/
theorem Grown.length_past {allowed : Derivation → Step → Prop} {past : List Derivation}
    (h : Grown allowed d past) : past.length = d.steps.length := by
  induction h with
  | empty limit => rfl
  | addStep _ _ hadd ih =>
    obtain ⟨_, _, _, rfl⟩ := addStep_eq_ok_iff.mp hadd
    simp [extend, ih]
  | openScope _ hopen ih =>
    obtain ⟨_, _, rfl⟩ := openScope_eq_ok_iff.mp hopen
    exact ih
  | closeScope _ hclose ih =>
    obtain ⟨_, _, _, _, rfl⟩ := closeScope_eq_ok_iff.mp hclose
    exact ih

/-- Taking back a step right after it was added leaves no trace of it. -/
theorem Grown.deleteStep_addStep {allowed : Derivation → Step → Prop} {past : List Derivation}
    (h : Grown allowed d past) (hadd : d.addStep step = .ok (number, d')) :
    d'.deleteStep = .ok ({ step with level := d.depth }, d) := by
  have hgrown : Grown (fun _ _ => True) d' (d :: past) :=
    .addStep (h.mono fun _ _ _ => trivial) trivial hadd
  obtain ⟨_, _, _, rfl⟩ := addStep_eq_ok_iff.mp hadd
  rcases hgrown.deleteStep_cases with ⟨hp, _, _⟩ | ⟨before, earlier, last, hp, _, hs, hok⟩
  · cases hp
  · cases hp
    obtain rfl : { step with level := d.depth } = last := by
      simpa [extend] using hs
    exact hok

/-- **Exact undo.** In every derivation that can be reached, the steps are those that the events say
    were added, and carrying out the events gives the derivation back. Taking back a step is refused
    only if there is none; otherwise it returns the last step and the derivation as it stood just
    before that step was added. -/
theorem History.deleteStep_exact {past : List Derivation} (h : History d past) :
    d.steps = addedSteps d.events ∧
    (Derivation.empty d.depthLimit).replayAll d.events = .ok d ∧
    (∀ e, d.deleteStep = .error e ↔ e = .noSteps ∧ d.steps = []) ∧
    past.length = d.steps.length ∧
    (∀ before earlier, past = before :: earlier →
      ∃ step, d.steps = before.steps ++ [step] ∧ d.deleteStep = .ok (step, before)) ∧
    ∀ step number d', d.addStep step = .ok (number, d') →
      d'.deleteStep = .ok ({ step with level := d.depth }, d) := by
  have hg := h.grown
  refine ⟨hg.steps_eq, hg.replayAll_events, ?_, hg.length_past, ?_, ?_⟩
  · intro e
    rcases hg.deleteStep_cases with ⟨_, hs, hno⟩ | ⟨_, _, _, _, _, hs, hok⟩
    · rw [hno, hs]
      simp [eq_comm]
    · rw [hok, hs]
      simp
  · intro before earlier hpast
    subst hpast
    rcases hg.deleteStep_cases with ⟨hp, _, _⟩ | ⟨_, _, step, hp, _, hs, hok⟩
    · cases hp
    · cases hp
      exact ⟨step, hs, hok⟩
  · intro step number d' hadd
    exact hg.deleteStep_addStep hadd

/-- A step that states a proposition. -/
def sampleStep (name : String) : Step where
  formula := .proposition name
  ruleName := "Premise"
  ruleAbbreviation := "Pr"

/-- `A`, and a scope that was opened after it. -/
def sampleOpened : Derivation := ((Derivation.empty 0).extend (sampleStep "A")).opened

/-- `A`, and `B` in a sub-proof that was closed. -/
def sampleClosed : Derivation := (sampleOpened.extend (sampleStep "B")).closedInto [.step 1] []

theorem history_sampleClosed : History sampleClosed [sampleOpened, .empty 0] := by
  have hA : History ((Derivation.empty 0).extend (sampleStep "A")) [.empty 0] :=
    .addStep (.empty 0) (addStep_eq_ok_iff.mpr ⟨rfl, by decide, rfl, rfl⟩)
  have hopened : History sampleOpened [.empty 0] :=
    .openScope hA (openScope_eq_ok_iff.mpr ⟨by decide, by decide, rfl⟩)
  have hB : History (sampleOpened.extend (sampleStep "B")) [sampleOpened, .empty 0] :=
    .addStep hopened (addStep_eq_ok_iff.mpr ⟨rfl, by decide, rfl, rfl⟩)
  exact .closeScope hB (closeScope_eq_ok_iff.mpr ⟨[.step 1], [], rfl, by decide, rfl⟩)

/-- The scope in which the step was added is open again. -/
theorem History.deleteStep_exact_sampleClosed :
    History sampleClosed [sampleOpened, .empty 0] ∧
      ∃ step, sampleClosed.steps = sampleOpened.steps ++ [step] ∧
        sampleClosed.deleteStep = .ok (step, sampleOpened) := by
  obtain ⟨_, _, _, _, hlast, _⟩ := history_sampleClosed.deleteStep_exact
  exact ⟨history_sampleClosed, hlast sampleOpened [.empty 0] rfl⟩

end Derivation

end NaturalDeduction
