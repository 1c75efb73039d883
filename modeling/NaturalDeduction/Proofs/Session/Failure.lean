import NaturalDeduction.Proofs.Derivation.InPlace
import NaturalDeduction.Proofs.Rendering
import NaturalDeduction.Proofs.Session.Recheck
import NaturalDeduction.Session.InPlace

/-! # Commands that fail change nothing

    A session that is kept in place is changed by its commands as they go on,
    and a command can fail after its first change: an assumption may be refused
    when its scope is already open, and a step is taken back by carrying out
    events again when the derivation is already thrown away.

    * **Commands**: in every session that can be reached, a command in place
      has the result and leaves the session that the command returns, or it
      fails in the same way and leaves the session as it was
      (`outcome_perform`).
    * **Runs**: commands that fail can be left out of a run.
-/

namespace NaturalDeduction.Session

open Mutation (outcome outcome_bind outcome_get outcome_ofExcept)

variable {α β : Type} {s s' : Session}

/-! ### Work on the derivation -/

/-- Work on the derivation that is all or nothing is so for the session. -/
theorem outcome_onDerivation {x : Mutation Derivation DerivationError α}
    {r : Except DerivationError (α × Derivation)}
    (h : outcome x s.derivation = settled s.derivation r) :
    outcome (InPlace.onDerivation x) s =
      settled s ((r.mapError Error.derivation).map fun p => (p.1, s.withDerivation p.2)) := by
  unfold InPlace.onDerivation
  simp only [outcome_bind, outcome_get, h]
  cases r <;> rfl

theorem outcome_addStep (step : Step) (s : Session) :
    outcome (InPlace.onDerivation (Derivation.InPlace.addStep step)) s =
      settled s (s.addStep step) := by
  rw [outcome_onDerivation (Derivation.outcome_addStep step s.derivation), addStep]
  cases s.derivation.addStep step <;> rfl

theorem outcome_openScope (s : Session) :
    outcome (InPlace.onDerivation Derivation.InPlace.openScope) s =
      settled s (s.openScope.map (Prod.mk ())) := by
  rw [outcome_onDerivation (Derivation.outcome_openScope s.derivation), openScope]
  cases s.derivation.openScope <;> rfl

theorem outcome_closeScope (s : Session) :
    outcome (InPlace.onDerivation Derivation.InPlace.closeScope) s =
      settled s (s.closeScope.map (Prod.mk ())) := by
  rw [outcome_onDerivation (Derivation.outcome_closeScope s.derivation), closeScope]
  cases s.derivation.closeScope <;> rfl

theorem outcome_deleteStep {allowed : Derivation → Step → Prop} {past : List Derivation}
    (h : Derivation.Grown allowed s.derivation past) :
    outcome (InPlace.onDerivation Derivation.InPlace.deleteStep) s = settled s s.deleteStep := by
  rw [outcome_onDerivation (Derivation.outcome_deleteStep h), deleteStep]
  cases s.derivation.deleteStep <;> rfl

/-! ### Goals, inferences and assumptions -/

/-- A goal can always be shown, so that nothing fails after its premises are stated. -/
theorem outcome_start (goal : Sequent) (s : Session) :
    outcome (InPlace.start goal) s = settled s ((s.start goal).map (Prod.mk ())) := by
  unfold InPlace.start start
  simp only [outcome_bind, outcome_get, outcome_ofExcept, Language.formatSequent_eq]
  cases s.statePremises (.empty s.config.depthLimit) goal.premises <;> rfl

theorem outcome_startText (source : String) (s : Session) :
    outcome (InPlace.startText source) s = settled s ((s.startText source).map (Prod.mk ())) := by
  unfold InPlace.startText startText
  simp only [outcome_bind, outcome_get, outcome_ofExcept, outcome_start]
  cases s.logic.language.parseSequent .proposition source <;> rfl

/-- A step is asked for first, and added when there are no questions left. -/
theorem outcome_consulted (x : Consultation Step) (advisor : Advisor) (s : Session) :
    outcome (do
      let step ← Mutation.ofExcept (x.run advisor)
      InPlace.onDerivation (Derivation.InPlace.addStep step)) s =
        settled s ((x >>= fun step => .ofExcept id (s.addStep step)).run advisor) := by
  rw [Consultation.run_bind, outcome_bind, outcome_ofExcept]
  cases x.run advisor with
  | error e => rfl
  | ok step =>
    simp only [outcome_addStep, Consultation.run_ofExcept]
    cases s.addStep step <;> rfl

theorem outcome_infer (key : String) (citations : List Citation) (advisor : Advisor)
    (s : Session) :
    outcome (InPlace.infer key citations advisor) s =
      settled s ((s.infer key citations).run advisor) := by
  unfold InPlace.infer infer
  rw [outcome_bind, outcome_get]
  exact outcome_consulted (s.inferredStep key citations) advisor s

theorem outcome_replace (key : String) (citations : List Citation) (advisor : Advisor)
    (s : Session) :
    outcome (InPlace.replace key citations advisor) s =
      settled s ((s.replace key citations).run advisor) := by
  unfold InPlace.replace replace
  rw [outcome_bind, outcome_get]
  exact outcome_consulted (s.replacedStep key citations) advisor s

/-- An assumption that is refused in its scope leaves no scope behind. -/
theorem outcome_assume (assumption : Formula) (s : Session) :
    outcome (InPlace.assume assumption) s = settled s (s.assume assumption) := by
  unfold InPlace.assume
  simp only [outcome_bind, outcome_get, outcome_ofExcept]
  cases hstep : s.assertionStep s.logic.calculus.subproofRule assumption with
  | error e =>
    rw [assume, hstep]
    rfl
  | ok step =>
    simp only [outcome_openScope, openScope]
    cases hopen : s.derivation.openScope with
    | error e =>
      rw [assume, hstep, hopen]
      rfl
    | ok opened =>
      have hassume : s.assume assumption = (s.withDerivation opened).addStep step := by
        rw [assume, hstep, hopen]
        rfl
      show outcome (tryCatch _ _) (s.withDerivation opened) = _
      rw [Mutation.outcome_tryCatch, outcome_addStep, hassume]
      -- the handler puts back the derivation of `s`, and nothing else has changed
      cases (s.withDerivation opened).addStep step <;> rfl

/-! ### Commands -/

/-- A command that only changes the session. -/
theorem outcome_done {x : Mutation Session Error Unit} {r : Except Error Session}
    (h : outcome x s = settled s (r.map (Prod.mk ()))) (advisor : Advisor) :
    outcome (do x; return Reply.done) s =
      settled s ((Consultation.ofExcept id do return (Reply.done, ← r)).run advisor) := by
  rw [outcome_bind, h, Consultation.run_ofExcept]
  cases r <;> rfl

/-- A command that asks nothing and replies with a result. -/
theorem outcome_replied {x : Mutation Session Error α} {r : Except Error (α × Session)}
    (h : outcome x s = settled s r) (reply : α → Reply) (advisor : Advisor) :
    outcome (do return reply (← x)) s =
      settled s ((Consultation.ofExcept id
        (r >>= fun p => pure (reply p.1, p.2))).run advisor) := by
  rw [outcome_bind, h, Consultation.run_ofExcept]
  cases r <;> rfl

/-- A command that asks the host and replies with a result. -/
theorem outcome_asked {x : Mutation Session Error α} {c : Consultation (α × Session)}
    {advisor : Advisor} (h : outcome x s = settled s (c.run advisor)) (reply : α → Reply) :
    outcome (do return reply (← x)) s =
      settled s ((c >>= fun p => pure (reply p.1, p.2)).run advisor) := by
  rw [outcome_bind, h, Consultation.run_bind]
  cases c.run advisor <;> rfl

/-- **Commands in place.** If the derivation of a session has grown, a command in place has the result
    of the command and leaves the session that it returns, or fails and leaves the session as it
    was. -/
theorem outcome_perform {allowed : Derivation → Step → Prop} {past : List Derivation}
    (h : Derivation.Grown allowed s.derivation past) (command : Command) (advisor : Advisor) :
    outcome (InPlace.perform command advisor) s = settled s ((s.perform command).run advisor) := by
  cases command with
  | start goal => exact outcome_done (outcome_start goal s) advisor
  | startText source => exact outcome_done (outcome_startText source s) advisor
  | infer key citations => exact outcome_asked (outcome_infer key citations advisor s) .added
  | replace key citations => exact outcome_asked (outcome_replace key citations advisor s) .added
  | openScope => exact outcome_done (outcome_openScope s) advisor
  | assume assumption => exact outcome_replied (outcome_assume assumption s) .added advisor
  | closeScope => exact outcome_done (outcome_closeScope s) advisor
  | deleteStep =>
    -- only here the history of the derivation matters: its events are carried out again
    exact outcome_replied (outcome_deleteStep h) .removed advisor

/-! ### Runs -/

/-- The commands of a script that succeed when the script is carried out. -/
def withoutFailures (script : List (Command × Advisor)) (s : Session) : List (Command × Advisor) :=
  ((script.zip (InPlace.performAll script s).1).filter fun entry => entry.2.isOk).map Prod.fst

section Runs

variable {logic : Logic} {config : Config} {command : Command} {advisor : Advisor}
  {result : Except Error Reply} {script : List (Command × Advisor)}

theorem performAll_cons (h : outcome (InPlace.perform command advisor) s = (result, s')) :
    InPlace.performAll ((command, advisor) :: script) s =
      (result :: (InPlace.performAll script s').1, (InPlace.performAll script s').2) := by
  rw [InPlace.performAll, h]

theorem withoutFailures_cons (h : outcome (InPlace.perform command advisor) s = (result, s')) :
    withoutFailures ((command, advisor) :: script) s =
      if result.isOk then (command, advisor) :: withoutFailures script s'
      else withoutFailures script s' := by
  simp only [withoutFailures, performAll_cons h, List.zip_cons_cons, List.filter_cons]
  split <;> rfl

/-- A command in place leaves a session whose derivation has grown. -/
theorem Proper.outcome_cases (hs : Proper logic config (fun _ => True) s) (command : Command)
    (advisor : Advisor) :
    (∃ reply s', outcome (InPlace.perform command advisor) s = (.ok reply, s') ∧
      Proper logic config (fun _ => True) s') ∨
    ∃ e, outcome (InPlace.perform command advisor) s = (.error e, s) := by
  obtain ⟨past, hgrown⟩ := hs.grown
  rw [outcome_perform hgrown]
  cases hrun : (s.perform command).run advisor with
  | error e => exact .inr ⟨e, rfl⟩
  | ok result =>
    have hwithin : command.Within fun _ => True := by cases command <;> trivial
    exact .inl ⟨result.1, result.2, rfl, hs.perform hwithin hrun⟩

theorem Proper.performAll (hs : Proper logic config (fun _ => True) s)
    (script : List (Command × Advisor)) :
    Proper logic config (fun _ => True) (InPlace.performAll script s).2 := by
  induction script generalizing s with
  | nil => exact hs
  | cons entry script ih =>
    rcases hs.outcome_cases entry.1 entry.2 with ⟨reply, s', hok, hs'⟩ | ⟨e, herror⟩
    · rw [performAll_cons hok]
      exact ih hs'
    · rw [performAll_cons herror]
      exact ih hs

/-- Leaving out the commands that fail changes neither the other results nor the last session. -/
theorem Proper.performAll_withoutFailures (hs : Proper logic config (fun _ => True) s)
    (script : List (Command × Advisor)) :
    InPlace.performAll (withoutFailures script s) s =
      ((InPlace.performAll script s).1.filter Except.isOk, (InPlace.performAll script s).2) := by
  induction script generalizing s with
  | nil => rfl
  | cons entry script ih =>
    rcases hs.outcome_cases entry.1 entry.2 with ⟨reply, s', hok, hs'⟩ | ⟨e, herror⟩
    · rw [withoutFailures_cons hok, performAll_cons hok]
      show InPlace.performAll (entry :: withoutFailures script s') s = _
      rw [performAll_cons hok, ih hs']
      rfl
    · rw [withoutFailures_cons herror, performAll_cons herror]
      show InPlace.performAll (withoutFailures script s) s = _
      rw [ih hs]
      rfl

/-- **Failures change nothing.** Take any session that is reached in place, whatever was done in it,
    whatever the host answered and whatever failed. A command has the result that it has on its own,
    with the session after it in place; if it fails, the session is the one from before. So the
    session is also reached by the commands that did not fail, with the same results. -/
theorem failures_change_nothing (logic : Logic) (config : Config)
    (script : List (Command × Advisor)) :
    let start := Session.new logic config
    let s := (InPlace.performAll script start).2
    (∀ command advisor, outcome (InPlace.perform command advisor) s =
      settled s ((s.perform command).run advisor)) ∧
    (∀ command advisor e s',
      outcome (InPlace.perform command advisor) s = (.error e, s') → s' = s) ∧
    InPlace.performAll (withoutFailures script start) start =
      ((InPlace.performAll script start).1.filter Except.isOk, s) := by
  intro start s
  have hstart : Proper logic config (fun _ => True) start := Proper.new logic config _
  have hs : Proper logic config (fun _ => True) s := hstart.performAll script
  refine ⟨?_, ?_, hstart.performAll_withoutFailures script⟩
  · intro command advisor
    obtain ⟨past, hgrown⟩ := hs.grown
    exact outcome_perform hgrown command advisor
  · intro command advisor e s' hfails
    rcases hs.outcome_cases command advisor with ⟨reply, s₁, hok, _⟩ | ⟨e', herror⟩
    · rw [hok] at hfails
      cases hfails
    · rw [herror] at hfails
      cases hfails
      rfl

end Runs

/-- A goal, an inference that is cancelled, and one that is not. -/
def sampleFailures : List (Command × Advisor) :=
  [ (.start ⟨[.formula (.app ⟨"Conjunction", .infixed⟩ [.proposition "A", .proposition "B"])], []⟩,
      Advisor.firstChoice),
    (.infer "Simp" [.step 1], fun _ => none),
    (.infer "Simp" [.step 1], Advisor.firstChoice) ]

/-- An assumption with a schema variable is refused when its scope is already open. -/
theorem failures_change_nothing_sampleFailures :
    let s := (InPlace.performAll sampleFailures (Session.new .sample {})).2
    s.derivation.steps.length = 2 ∧ s.derivation.openScope.isOk = true ∧
    (outcome (InPlace.perform (.assume (.schema "P")) Advisor.firstChoice) s).1 =
      .error (.derivation (.schematicFormula ["P"])) ∧
    (outcome (InPlace.perform (.assume (.schema "P")) Advisor.firstChoice) s).2 = s ∧
    (InPlace.performAll (withoutFailures sampleFailures (Session.new .sample {}))
      (Session.new .sample {})).2 = s := by
  intro s
  obtain ⟨_, hunchanged, hruns⟩ := failures_change_nothing .sample {} sampleFailures
  have hfails : (outcome (InPlace.perform (.assume (.schema "P")) Advisor.firstChoice) s).1 =
      .error (.derivation (.schematicFormula ["P"])) := by rfl
  refine ⟨rfl, rfl, hfails, hunchanged _ _ _ _ (Prod.ext hfails rfl), ?_⟩
  rw [hruns]

end NaturalDeduction.Session
