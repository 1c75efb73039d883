import NaturalDeduction.Proofs.Calculus.Inference
import NaturalDeduction.Proofs.Session.Failure

/-! # What premises and assumptions become

    A premise of a goal and an assumption are stated by a rule without premises
    whose conclusion is an atom. The atom may be a schema variable or a
    proposition: a calculus is accepted with either. A schema variable stands
    for the formula to be stated. A proposition stands for itself, and the step
    then states it in place of the formula.

    * **Statements**: the step that a rule makes of a formula
      (`assertionStep_eq_ok_iff`).
    * **Goals**: to start a goal with concrete premises always succeeds, and
      gives one step for each premise (`start_eq_ok`).
    * **Assumptions**: an assumption is alone in its new scope
      (`assume_eq_ok`).
-/

namespace NaturalDeduction

variable {symbol : Symbol} {rule : Rule} {f : Formula}

/-! ### Statements -/

/-- What a rule with the atom `symbol` as conclusion states when it is to state `f`. -/
def Symbol.stated (symbol : Symbol) (f : Formula) : Formula :=
  if symbol.kind = .schema then f else .atom symbol

theorem Symbol.stated_eq_iff :
    symbol.stated f = f ↔ symbol.kind = .schema ∨ f = .atom symbol := by
  unfold stated
  split
  · next hschema => exact iff_of_true rfl (.inl hschema)
  · next hschema =>
    constructor
    · intro h
      exact .inr h.symm
    · intro h
      exact (h.resolve_left hschema).symm

theorem Symbol.map_stated_eq_iff {fs : List Formula} :
    fs.map symbol.stated = fs ↔ symbol.kind = .schema ∨ ∀ f ∈ fs, f = .atom symbol := by
  induction fs with
  | nil => simp
  | cons f fs ih =>
    rw [List.map_cons, List.cons.injEq, ih, stated_eq_iff, List.forall_mem_cons, or_and_left]

theorem Symbol.isConcrete_stated (h : f.isConcrete = true) :
    (symbol.stated f).isConcrete = true := by
  unfold stated
  split
  · exact h
  · next hschema =>
    rw [Formula.isConcrete_iff, Formula.vars, if_neg hschema]

theorem Substitution.apply_insert_symbol :
    (Substitution.empty.insert symbol.name f).apply (.atom symbol) = symbol.stated f := by
  rw [apply, get?_insert, if_pos rfl, Option.getD_some, Symbol.stated]

namespace Rule

/-- The step that states `f` by the rule, without citations and outside all sub-proofs. -/
def statement (rule : Rule) (symbol : Symbol) (f : Formula) : Step where
  formula := symbol.stated f
  ruleName := rule.name
  ruleAbbreviation := rule.abbreviation
  bindings := Substitution.empty.insert symbol.name f

theorem Asserts.matchInAnyOrder_nil (h : rule.Asserts symbol) (seed : Substitution) :
    Form.matchInAnyOrder rule.sequent.premises [] seed = .ok seed := by
  rw [h.premises]
  rfl

/-- The formula to be stated binds the only variable there can be. -/
theorem Asserts.unbound_eq_nil (h : rule.Asserts symbol) :
    rule.unbound (Substitution.empty.insert symbol.name f) = [] := by
  rw [List.eq_nil_iff_forall_not_mem]
  intro x hx
  have hmissing := missing_unbound (h.matchInAnyOrder_nil (Substitution.empty.insert symbol.name f))
  obtain ⟨⟨t, ht, hvar⟩, _, hnone⟩ := (hmissing.mem_iff x).mp hx
  rw [h.conclusions, List.mem_singleton] at ht
  rw [ht, Formula.vars] at hvar
  split at hvar
  · rw [List.mem_singleton.mp hvar, Substitution.get?_insert, if_pos rfl] at hnone
    cases hnone
  · cases hvar

end Rule

theorem Calculus.infer_of_asserts {c : Calculus} (hrule : c.rule rule.name = .ok rule) (h : rule.Asserts symbol)
    (f : Formula) :
    c.infer rule.name [] (Substitution.empty.insert symbol.name f) =
      .ok ⟨Substitution.empty.insert symbol.name f, [symbol.stated f]⟩ := by
  rw [infer_of_ok hrule (h.matchInAnyOrder_nil _), if_pos h.unbound_eq_nil, h.conclusions,
    List.map_singleton, Substitution.apply_insert_symbol]

namespace Derivation

variable {d : Derivation}

/-- The derivation with more steps. -/
def extendAll (d : Derivation) (steps : List Step) : Derivation := steps.foldl extend d

theorem depth_extendAll (steps : List Step) : (d.extendAll steps).depth = d.depth := by
  induction steps generalizing d with
  | nil => rfl
  | cons step steps ih => exact ih

theorem steps_extendAll (steps : List Step) :
    (d.extendAll steps).steps =
      d.steps ++ steps.map fun step => { step with level := d.depth } := by
  induction steps generalizing d with
  | nil => exact (List.append_nil _).symm
  | cons step steps ih =>
    show ((d.extend step).extendAll steps).steps = _
    rw [ih, List.map_cons, List.append_cons]
    rfl

end Derivation

namespace Session

open Mutation (outcome)

variable {s s' : Session} {step : Step} {number : Nat}

/-- **Statements.** A rule of the calculus states formulas if it has no premises and an atom as its
    conclusion. -/
theorem assertionStep_eq_ok_iff (hc : s.logic.calculus.Accepted)
    (hmem : rule ∈ s.logic.calculus.rules) :
    s.assertionStep rule f = .ok step ↔
      ∃ symbol, rule.Asserts symbol ∧ rule.statement symbol f = step := by
  have hrule : s.logic.calculus.rule rule.name = .ok rule :=
    hc.rule_eq_ok hmem (Rule.isCalled_iff.mpr (.inl rfl))
  have hstates {symbol : Symbol} (h : rule.Asserts symbol) :
      s.assertionStep rule f = .ok (rule.statement symbol f) := by
    unfold assertionStep
    rw [h.conclusions]
    simp only [Calculus.infer_of_asserts hrule h, Rule.statement]
  constructor
  · intro h
    obtain ⟨symbol, inference, _, _, hconclusions, hinfer, _⟩ := assertionStep_eq_ok h
    -- no premises are given, so that the rule has none
    have hperm := (Calculus.infer_eq_ok hrule hinfer).2.1
    have hpremises : rule.sequent.premises = [] := List.map_eq_nil_iff.mp hperm.nil_eq.symm
    have hasserts : rule.Asserts symbol := ⟨hpremises, hconclusions⟩
    rw [hstates hasserts] at h
    exact ⟨symbol, hasserts, Except.ok.inj h⟩
  · intro h
    obtain ⟨symbol, hasserts, rfl⟩ := h
    exact hstates hasserts

/-! ### Goals -/

/-- Premises that are concrete are stated one after the other. -/
theorem statePremises_eq (hc : s.logic.calculus.Accepted)
    (hasserts : s.logic.calculus.assertionRule.Asserts symbol) {fs : List Formula}
    (hconcrete : ∀ f ∈ fs, f.isConcrete = true) (d : Derivation) :
    s.statePremises d (fs.map .formula) =
      .ok (d.extendAll (fs.map (s.logic.calculus.assertionRule.statement symbol))) := by
  induction fs generalizing d with
  | nil => rfl
  | cons f fs ih =>
    have hstep : s.assertionStep s.logic.calculus.assertionRule f =
        .ok (s.logic.calculus.assertionRule.statement symbol f) :=
      (assertionStep_eq_ok_iff hc hc.assertionRule_mem).mpr ⟨symbol, hasserts, rfl⟩
    have hadd : d.addStep (s.logic.calculus.assertionRule.statement symbol f) =
        .ok (d.steps.length + 1,
          d.extend (s.logic.calculus.assertionRule.statement symbol f)) := by
      refine Derivation.addStep_eq_ok_iff.mpr ⟨?_, ?_, rfl, rfl⟩
      · have hstated : (symbol.stated f).isConcrete = true :=
          Symbol.isConcrete_stated (hconcrete f List.mem_cons_self)
        exact Names.ofList_eq_nil_iff.mpr ((Formula.isConcrete_iff _).mp hstated)
      · intro citation hcitation
        cases hcitation
    rw [List.map_cons, statePremises, hstep]
    show ((d.addStep _).mapError Error.derivation >>= _) = _
    rw [hadd]
    exact ih (fun f hf => hconcrete f (List.mem_cons_of_mem _ hf)) _

/-- **Goals.** A goal with concrete premises is started, with one step for each premise. -/
theorem start_eq_ok (hc : s.logic.calculus.Accepted)
    (hasserts : s.logic.calculus.assertionRule.Asserts symbol) {goal : Sequent} {fs : List Formula}
    (hgoal : goal.premises = fs.map .formula) (hconcrete : ∀ f ∈ fs, f.isConcrete = true) :
    ∃ s', s.start goal = .ok s' ∧ s'.goal = some goal ∧ s'.derivation.depth = 0 ∧
      s'.derivation.steps = fs.map (s.logic.calculus.assertionRule.statement symbol) := by
  rw [start, hgoal, statePremises_eq hc hasserts hconcrete]
  refine ⟨_, rfl, rfl, Derivation.depth_extendAll _, ?_⟩
  show (Derivation.extendAll _ _).steps = _
  rw [Derivation.steps_extendAll, List.map_map]
  rfl

/-! ### Assumptions -/

/-- **Assumptions.** An assumption is stated in a new scope. -/
theorem assume_eq_ok (hc : s.logic.calculus.Accepted) {a : Formula}
    (h : s.assume a = .ok (number, s')) :
    ∃ symbol, s.logic.calculus.subproofRule.Asserts symbol ∧
      number = s.derivation.steps.length + 1 ∧
      s' = s.withDerivation
        (s.derivation.opened.extend (s.logic.calculus.subproofRule.statement symbol a)) := by
  obtain ⟨step, hstep, h⟩ := Except.bind_eq_ok.mp h
  obtain ⟨d, hopen, h⟩ := Except.bind_eq_ok.mp h
  obtain ⟨⟨n, d'⟩, hadd, h⟩ := Except.bind_eq_ok.mp h
  rw [Except.mapError_eq_ok] at hopen hadd
  cases h
  obtain ⟨symbol, hasserts, rfl⟩ := (assertionStep_eq_ok_iff hc hc.subproofRule_mem).mp hstep
  obtain ⟨_, _, rfl⟩ := Derivation.openScope_eq_ok_iff.mp hopen
  obtain ⟨_, _, rfl, rfl⟩ := Derivation.addStep_eq_ok_iff.mp hadd
  exact ⟨symbol, hasserts, rfl, rfl⟩

/-! ### Runs -/

/-- **What premises and assumptions become.** Take a logic whose calculus is accepted, and any
    session that is reached in place. To start a goal whose premises are concrete formulas succeeds,
    and leaves one step for each premise, in order, outside all sub-proofs and without citations. A
    command to assume a formula, if it succeeds, opens a scope in which there is one step. In both
    cases the step has the names of the rule for it, and it states the formula itself exactly if
    the atom that this rule concludes is a schema variable or the formula itself. -/
theorem premises_and_assumptions_stated {logic : Logic} (hc : logic.calculus.Accepted)
    (config : Config) (script : List (Command × Advisor)) :
    let s := (InPlace.performAll script (Session.new logic config)).2
    (∃ symbol, logic.calculus.assertionRule.Asserts symbol ∧
      ∀ (goal : Sequent) (fs : List Formula) (advisor : Advisor),
        goal.premises = fs.map .formula → (∀ f ∈ fs, f.isConcrete = true) →
          ∃ s', outcome (InPlace.perform (.start goal) advisor) s = (.ok .done, s') ∧
            s'.goal = some goal ∧ s'.derivation.depth = 0 ∧
            s'.derivation.steps = fs.map (logic.calculus.assertionRule.statement symbol) ∧
            (s'.derivation.steps.map Step.formula = fs ↔
              symbol.kind = .schema ∨ ∀ f ∈ fs, f = .atom symbol)) ∧
    ∀ (a : Formula) (advisor : Advisor) (reply : Reply) (s' : Session),
      outcome (InPlace.perform (.assume a) advisor) s = (.ok reply, s') →
        ∃ symbol number step, logic.calculus.subproofRule.Asserts symbol ∧
          reply = .added number ∧
          s'.derivation.depth = s.derivation.depth + 1 ∧
          s'.derivation.scopes.outer =
            s.derivation.scopes.current :: s.derivation.scopes.outer ∧
          s'.derivation.scopes.current = [.step number] ∧
          s'.derivation.steps = s.derivation.steps ++ [step] ∧
          s'.derivation.step? number = some step ∧
          step = { logic.calculus.subproofRule.statement symbol a with
            level := s.derivation.depth + 1 } ∧
          (step.formula = a ↔ symbol.kind = .schema ∨ a = .atom symbol) := by
  intro s
  have hs : Proper logic config (fun _ => True) s := (Proper.new logic config _).performAll script
  obtain ⟨past, hgrown⟩ := hs.grown
  rw [← hs.logic_eq] at hc ⊢
  refine ⟨?_, ?_⟩
  · obtain ⟨symbol, hasserts⟩ := hc.asserts
    refine ⟨symbol, hasserts, ?_⟩
    intro goal fs advisor hgoal hconcrete
    obtain ⟨s', hstart, hgoal', hdepth, hsteps⟩ := start_eq_ok hc hasserts hgoal hconcrete
    refine ⟨s', ?_, hgoal', hdepth, hsteps, ?_⟩
    · rw [outcome_perform hgrown, perform, hstart]
      rfl
    · rw [hsteps, List.map_map]
      exact Symbol.map_stated_eq_iff
  · intro a advisor reply s' houtcome
    rw [outcome_perform hgrown, perform, Consultation.run_ofExcept] at houtcome
    cases hassume : s.assume a with
    | error e =>
      rw [hassume] at houtcome
      cases houtcome
    | ok result =>
      rw [hassume] at houtcome
      cases houtcome
      obtain ⟨symbol, hasserts, hnumber, hsession⟩ := assume_eq_ok hc hassume
      rw [hsession, hnumber]
      refine ⟨symbol, _, _, hasserts, rfl, rfl, rfl, rfl, rfl, ?_, rfl, Symbol.stated_eq_iff⟩
      exact Derivation.step?_extend_self

theorem premises_and_assumptions_stated_sample :
    let s := (InPlace.performAll sampleFailures (Session.new .sample {})).2
    let goal : Sequent := ⟨[.formula (.proposition "C"), .formula (.proposition "D")], []⟩
    s.derivation.steps.length = 2 ∧
    (∃ s', outcome (InPlace.perform (.start goal) Advisor.firstChoice) s = (.ok .done, s') ∧
      s'.derivation.steps.map Step.formula = [.proposition "C", .proposition "D"]) ∧
    ∃ s', outcome (InPlace.perform (.assume (.proposition "C")) Advisor.firstChoice) s =
        (.ok (.added 3), s') ∧
      s'.derivation.scopes.current = [.step 3] ∧
      (s'.derivation.step? 3).map Step.formula = some (.proposition "C") := by
  intro s goal
  -- both are stated by the rule `|- P`
  have hschema {symbol : Symbol}
      (h : Rule.Asserts ⟨"Premise", "Pr", ⟨[], [.schema "P"]⟩, none⟩ symbol) :
      symbol.kind = .schema := by
    cases h.conclusions
    rfl
  obtain ⟨⟨symbol, hasserts, hstart⟩, hassume⟩ :=
    premises_and_assumptions_stated Logic.accepted_sample {} sampleFailures
  refine ⟨rfl, ?_, ?_⟩
  · obtain ⟨s', houtcome, _, _, _, hverbatim⟩ :=
      hstart goal [.proposition "C", .proposition "D"] Advisor.firstChoice rfl (by decide)
    exact ⟨s', houtcome, hverbatim.mpr (.inl (hschema hasserts))⟩
  · have hok : ∃ s', outcome (InPlace.perform (.assume (.proposition "C")) Advisor.firstChoice) s =
        (.ok (.added 3), s') := ⟨_, rfl⟩
    obtain ⟨s', hok⟩ := hok
    obtain ⟨symbol', number, step, hasserts', hreply, _, _, hscope, _, hstep, _, hverbatim⟩ :=
      hassume _ _ _ s' hok
    cases hreply
    refine ⟨s', hok, hscope, ?_⟩
    rw [hstep, Option.map_some, hverbatim.mpr (.inl (hschema hasserts'))]

/-- A logic in which the conclusion of the rule for premises is the proposition `A`. -/
def sampleLiteral : Logic where
  language := .arrow
  calculus :=
    let given : Rule := ⟨"Given", "G", ⟨[], [.proposition "A"]⟩, none⟩
    { rules := [given]
      roles := { assertion := "Given" }
      equivalence := none
      assertionRule := given
      subproofRule := given }

theorem accepted_sampleLiteral : sampleLiteral.calculus.Accepted :=
  ⟨sampleLiteral.calculus.rules, sampleLiteral.calculus.roles, none, {}, rfl⟩

/-- There the premise `B` and the assumption `C` both become steps that state `A`. -/
theorem premise_not_stated :
    sampleLiteral.calculus.Accepted ∧
    ∃ s₁ s₂,
      outcome (InPlace.perform (.start ⟨[.formula (.proposition "B")], [.proposition "B"]⟩)
        Advisor.firstChoice) (Session.new sampleLiteral {}) = (.ok .done, s₁) ∧
      s₁.derivation.steps.map Step.formula = [.proposition "A"] ∧
      outcome (InPlace.perform (.assume (.proposition "C")) Advisor.firstChoice) s₁ =
        (.ok (.added 2), s₂) ∧
      s₂.derivation.steps.map Step.formula = [.proposition "A", .proposition "A"] :=
  ⟨accepted_sampleLiteral, _, _, rfl, rfl, rfl, rfl⟩

end Session

end NaturalDeduction
