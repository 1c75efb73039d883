import NaturalDeduction.Language.Arrow
import NaturalDeduction.Proofs.Derivation.Visibility
import NaturalDeduction.Proofs.Session.Growth

/-! # Checking a derivation again

    Each step of a session's derivation records the rule, the citations and the
    bindings by which it was obtained. This record is enough to check the step
    again: with the citations resolved in the derivation as it is now, the step
    is an instance of its rule, or a replacement by its equivalence.

    The citations of a step stand for the same forms later as when the step was
    added, since numbers of steps before it never change. If later steps are
    taken back and others get their numbers, that is after the step.
-/

namespace NaturalDeduction

/-! ### Checks on a single step -/

/-- The citations stand for the instances of the rule's premises, in some order, and the formula is
    the instance of the conclusion that the step names. -/
def ByInference (d : Derivation) (rule : Rule) (step : Step) : Prop :=
  ∃ forms, List.Forall₂ d.Denotes step.citations forms ∧
    forms.Perm (rule.sequent.premises.map step.bindings.applyForm) ∧
    (rule.sequent.conclusions[step.conclusionIndex]?).map step.bindings.apply = some step.formula

/-- The rule is an equivalence, and the only citation is a step whose formula has an instance of one
    side somewhere. The formula is the instance of the other side, in its place if replacements are
    made in context. -/
def ByReplacement (c : Calculus) (config : Config) (d : Derivation) (rule : Rule) (step : Step) :
    Prop :=
  ∃ left right k premise path selected other, c.sides? rule = some (left, right) ∧
    step.citations = [.step k] ∧ d.Denotes (.step k) (.formula premise) ∧
    premise.at? path = some selected ∧
    ((step.bindings.apply left = selected ∧ other = right) ∨
      (step.bindings.apply right = selected ∧ other = left)) ∧
    if config.replaceInContext = true then
      premise.replaceAt? path (step.bindings.apply other) = some step.formula
    else step.formula = step.bindings.apply other

/-- What the step records about itself is right. -/
def Rechecks (c : Calculus) (config : Config) (d : Derivation) (step : Step) : Prop :=
  ∃ rule ∈ c.rules, step.ruleName = rule.name ∧ step.ruleAbbreviation = rule.abbreviation ∧
    step.conclusionIndex < rule.sequent.conclusions.length ∧
    (ByInference d rule step ∨ ByReplacement c config d rule step)

variable {c : Calculus} {config : Config} {d d' : Derivation} {rule : Rule} {step : Step}

theorem Derivation.Denotes.mono {citation : Citation} {form : Form}
    (h : d.Denotes citation form)
    (hsame : ∀ k s, d.step? k = some s → d'.step? k = some s) : d'.Denotes citation form := by
  cases h with
  | step hs => exact .step (hsame _ _ hs)
  | subproof hs ht => exact .subproof (hsame _ _ hs) (hsame _ _ ht)

/-- The check does not depend on steps that come after those cited. -/
theorem Rechecks.mono (h : Rechecks c config d step)
    (hsame : ∀ k s, d.step? k = some s → d'.step? k = some s) : Rechecks c config d' step := by
  obtain ⟨rule, hmem, hname, habbr, hindex, hby⟩ := h
  refine ⟨rule, hmem, hname, habbr, hindex, ?_⟩
  rcases hby with ⟨forms, hforms, hperm, hconclusion⟩ | hreplacement
  · exact .inl ⟨forms, hforms.imp fun _ _ hden => hden.mono hsame, hperm, hconclusion⟩
  · obtain ⟨left, right, k, premise, path, selected, other, hsides, hcite, hden, hrest⟩ :=
      hreplacement
    exact .inr ⟨left, right, k, premise, path, selected, other, hsides, hcite,
      hden.mono hsame, hrest⟩

/-! ### The ways to add a step -/

/-- The outcome of an inference passes the check. -/
theorem rechecks_of_infer {key : String} {citations : List Citation} {premises : List Form}
    {extra : Substitution} {inference : Inference} {index : Nat} {conclusion : Formula}
    (hrule : c.rule key = .ok rule) (hpremises : List.Forall₂ d.Denotes citations premises)
    (hinfer : c.infer key premises extra = .ok inference)
    (hconclusion : inference.conclusions[index]? = some conclusion) :
    Rechecks c config d
      { formula := conclusion, citations := citations, ruleName := rule.name,
        ruleAbbreviation := rule.abbreviation, bindings := inference.bindings,
        conclusionIndex := index } := by
  obtain ⟨_, hperm, hlist⟩ := Calculus.infer_eq_ok hrule hinfer
  have hmem := (Calculus.mem_of_find? (Calculus.rule_eq_ok_iff.mp hrule)).1
  rw [hlist, List.getElem?_map] at hconclusion
  have hindex : index < rule.sequent.conclusions.length := by
    obtain ⟨template, htemplate, _⟩ := Option.map_eq_some_iff.mp hconclusion
    exact (List.getElem?_eq_some_iff.mp htemplate).1
  exact ⟨rule, hmem, rfl, rfl, hindex, .inl ⟨premises, hpremises, hperm, hconclusion⟩⟩

/-- A step that states a formula passes the check. -/
theorem Stated.rechecks {f : Formula} (hc : c.Accepted) (hmem : rule ∈ c.rules)
    (h : Stated c rule f step) : Rechecks c config d step := by
  obtain ⟨symbol, inference, conclusion, rest, _, hinfer, hlist, rfl⟩ := h
  have hcalled : rule.isCalled rule.name = true := by simp [Rule.isCalled]
  have hfirst : inference.conclusions[0]? = some conclusion := by rw [hlist]; rfl
  exact rechecks_of_infer (hc.rule_eq_ok hmem hcalled) .nil hinfer hfirst

/-- The outcome of a replacement passes the check. -/
theorem rechecks_of_replace {key : String} {citations : List Citation} {premises : List Form}
    {path : Path} {replacement : Replacement} (hrule : c.rule key = .ok rule)
    (hpremises : List.Forall₂ d.Denotes citations premises)
    (hreplace : c.replace key premises path = .ok replacement) :
    Rechecks c config d
      { formula := if config.replaceInContext then replacement.inContext else replacement.formula,
        citations := citations, ruleName := rule.name, ruleAbbreviation := rule.abbreviation,
        bindings := replacement.bindings } := by
  obtain ⟨left, right, premise, selected, other, hsides, rfl, hat, hmatch, hformula, hcontext⟩ :=
    Calculus.replace_eq_ok hrule hreplace
  have hmem := (Calculus.mem_of_find? (Calculus.rule_eq_ok_iff.mp hrule)).1
  have hindex : 0 < rule.sequent.conclusions.length := by
    unfold Calculus.sides? Sequent.sides? at hsides
    split at hsides
    · next hlist => rw [hlist]; exact Nat.one_pos
    · cases hsides
  refine ⟨rule, hmem, rfl, rfl, hindex, .inr ?_⟩
  -- the only citation stands for a formula, and so is that of a step
  obtain ⟨citation, rest, hden, hrest, rfl⟩ := List.forall₂_cons_right_iff.mp hpremises
  obtain rfl : rest = [] := List.forall₂_nil_right_iff.mp hrest
  cases hden with
  | @step k s hs =>
    refine ⟨left, right, k, _, path, selected, other, hsides, rfl, .step hs, hat, hmatch, ?_⟩
    cases hcfg : config.replaceInContext with
    | false =>
      simp only [Bool.false_eq_true, if_false]
      exact hformula
    | true =>
      simp only [if_true]
      rw [← hformula]
      exact hcontext

/-- A step that a session adds passes the check when it is added. -/
theorem Introduced.rechecks {logic : Logic} {permitted : String → Prop} {goal : Option Sequent}
    (hc : logic.calculus.Accepted) (h : Introduced logic config permitted goal d step) :
    Rechecks logic.calculus config d step := by
  cases h with
  | premise _ _ _ hstated => exact hstated.rechecks hc hc.assertionRule_mem
  | assumption _ _ hstated => exact hstated.rechecks hc hc.subproofRule_mem
  | inferred _ hrule hpremises hinfer hconclusion =>
    exact rechecks_of_infer hrule (Derivation.premises_eq_ok_iff.mp hpremises).2 hinfer hconclusion
  | replaced hrule hpremises hreplace =>
    exact rechecks_of_replace hrule (Derivation.premises_eq_ok_iff.mp hpremises).2 hreplace

/-! ### Whole derivations -/

/-- If steps pass the check when they are added, then all steps pass it at any time. -/
theorem Derivation.Grown.rechecks {past : List Derivation}
    (h : Grown (Rechecks c config) d past) {n : Nat} {step : Step} (hn : d.step? n = some step) :
    Rechecks c config d step := by
  induction h generalizing n step with
  | empty limit => cases n <;> cases hn
  | @addStep d d' _ added _ _ hcheck hadd ih =>
    obtain ⟨_, _, _, rfl⟩ := addStep_eq_ok_iff.mp hadd
    have hsame : ∀ k s, d.step? k = some s → (d.extend added).step? k = some s :=
      fun k s hk => step?_extend_of_some hk
    have hle := (step?_bounds hn).2
    rw [show (d.extend added).steps.length = d.steps.length + 1 by simp [extend]] at hle
    rcases Nat.lt_or_eq_of_le hle with hlt | rfl
    -- a step from before is the same one now, and the step with the last number is the new one
    · rw [step?_extend_of_le (by omega)] at hn
      exact (ih hn).mono hsame
    · rw [step?_extend_self] at hn
      cases hn
      exact Rechecks.mono hcheck hsame
  | openScope _ hopen ih =>
    obtain ⟨_, _, rfl⟩ := openScope_eq_ok_iff.mp hopen
    exact (ih hn).mono fun k s hk => hk
  | closeScope _ hclose ih =>
    obtain ⟨_, _, _, _, rfl⟩ := closeScope_eq_ok_iff.mp hclose
    exact (ih hn).mono fun k s hk => hk

/-- **Derivations can be checked again.** In every session of an accepted calculus, whatever was done
    and taken back and whatever the host answered, each step passes the check of its own record
    against the derivation as it is. -/
theorem Session.steps_recheck {logic : Logic} (hc : logic.calculus.Accepted) (config : Config)
    (script : List (Command × Advisor)) {n : Nat} {step : Step}
    (hn : ((Session.new logic config).afterAll script).derivation.step? n = some step) :
    Rechecks logic.calculus config ((Session.new logic config).afterAll script).derivation
      step := by
  have hscript : ∀ entry ∈ script, entry.1.Within fun _ => True := by
    intro entry _
    cases entry.1 <;> trivial
  obtain ⟨past, hgrown⟩ := ((Proper.new logic config fun _ => True).afterAll hscript).grown
  exact (hgrown.mono fun d step hintro => hintro.rechecks hc).rechecks hn

/-- A logic with simplification and double negation. -/
def Logic.sample : Logic where
  language := .arrow
  calculus :=
    let premise : Rule := ⟨"Premise", "Pr", ⟨[], [.schema "P"]⟩, none⟩
    { rules :=
        [ premise,
          ⟨"Simplification", "Simp",
            ⟨[.formula (.app ⟨"Conjunction", .infixed⟩ [.schema "P", .schema "Q"])],
              [.schema "P", .schema "Q"]⟩, none⟩,
          ⟨"Double Negation", "DN",
            ⟨[], [.app ⟨"Biconditional", .infixed⟩ [.schema "P",
              .app ⟨"Negation", .prefixed⟩ [.app ⟨"Negation", .prefixed⟩ [.schema "P"]]]]⟩,
            none⟩ ]
      roles := { assertion := "Premise" }
      equivalence := some ⟨"Biconditional", .infixed⟩
      assertionRule := premise
      subproofRule := premise }

theorem Logic.accepted_sample : sample.calculus.Accepted :=
  ⟨sample.calculus.rules, sample.calculus.roles, sample.calculus.equivalence, {}, rfl⟩

/-- From `A ^ B` to `A`, which is taken back and obtained again, and to `--A`. -/
def Session.sampleScript : List (Command × Advisor) :=
  [ .start ⟨[.formula (.app ⟨"Conjunction", .infixed⟩ [.proposition "A", .proposition "B"])], []⟩,
    .infer "Simp" [.step 1], .deleteStep, .infer "Simplification" [.step 1],
    .replace "DN" [.step 2] ].map (·, Advisor.firstChoice)

theorem Session.steps_recheck_sample :
    ∃ step, ((Session.new .sample {}).afterAll sampleScript).derivation.step? 3 = some step ∧
      step.citations = [.step 2] ∧
      Rechecks Logic.sample.calculus {} ((Session.new .sample {}).afterAll sampleScript).derivation
        step := by
  have hthird : ∃ step, ((Session.new .sample {}).afterAll sampleScript).derivation.step? 3 =
      some step ∧ step.citations = [.step 2] := ⟨_, rfl, rfl⟩
  obtain ⟨step, hn, hcite⟩ := hthird
  exact ⟨step, hn, hcite, steps_recheck Logic.accepted_sample {} sampleScript hn⟩

end NaturalDeduction
