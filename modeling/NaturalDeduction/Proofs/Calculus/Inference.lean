import NaturalDeduction.Proofs.Calculus
import NaturalDeduction.Proofs.Matching.AnyOrder

/-! # What an inference returns, and when it fails

    An inference goes through four checks, and fails at the first one that is
    not passed: there must be a rule of that name, as many premises as it has
    templates, a way to make the templates into the premises, and a binding for
    every variable of a conclusion.

    The last check looks at the variables that occur in conclusions only, since
    matching binds all the others. Hence a conclusion that is returned holds
    nothing but what the premises and the given bindings hold, and it is
    concrete if these are.
-/

namespace NaturalDeduction

theorem Form.mem_varsAll {x : String} {ps : List Form} :
    x ∈ Form.varsAll ps ↔ ∃ p ∈ ps, x ∈ p.vars := by
  induction ps with
  | nil => simp [Form.varsAll]
  | cons p ps ih => rw [Form.varsAll, List.mem_append, ih, List.exists_mem_cons_iff]

theorem Formula.mem_varsAll {x : String} {fs : List Formula} :
    x ∈ Formula.varsAll fs ↔ ∃ f ∈ fs, x ∈ f.vars := by
  rw [Formula.varsAll_eq, List.mem_flatMap]

/-- The variables of conclusions that occur in no premise, nested sequents included, and that
    `extra` does not bind, in ascending order. -/
structure Rule.Missing (rule : Rule) (extra : Substitution) (symbols : List String) : Prop where
  ascending : symbols.Pairwise (· < ·)
  mem_iff : ∀ x, x ∈ symbols ↔ (∃ f ∈ rule.sequent.conclusions, x ∈ f.vars) ∧
    (∀ p ∈ rule.sequent.premises, x ∉ p.vars) ∧ extra.get? x = none

/-- In some order the premises are instances of the templates, under a substitution that extends
    `extra`. -/
def Rule.Applies (rule : Rule) (premises : List Form) (extra : Substitution) : Prop :=
  ∃ σ : Substitution, σ.Extends extra ∧ premises.Perm (rule.sequent.premises.map σ.applyForm)

theorem Rule.applies_iff {rule : Rule} {premises : List Form} {extra : Substitution} :
    rule.Applies premises extra ↔
      ∃ σ, Form.matchInAnyOrder rule.sequent.premises premises extra = .ok σ := by
  constructor
  · intro h
    obtain ⟨σ, hextends, hperm⟩ := h
    obtain ⟨order, horder⟩ := Form.exists_assigned_iff.mpr hperm
    exact Form.matchInAnyOrder_complete hextends horder
  · intro h
    obtain ⟨σ, hσ⟩ := h
    exact ⟨σ, Form.matchInAnyOrder_sound hσ⟩

/-- The variables that occur in conclusions only and are not bound by `σ`. -/
def Rule.unbound (rule : Rule) (σ : Substitution) : List String :=
  rule.conclusionOnly.filter fun x => !σ.contains x

/-- Matching the premises leaves unbound what was missing before. -/
theorem Rule.missing_unbound {rule : Rule} {premises : List Form} {extra σ : Substitution}
    (h : Form.matchInAnyOrder rule.sequent.premises premises extra = .ok σ) :
    rule.Missing extra (rule.unbound σ) := by
  constructor
  · exact ((Names.pairwise_ofList _).filter _).filter _
  · intro x
    have hpremises : x ∉ Form.varsAll rule.sequent.premises ↔
        ∀ p ∈ rule.sequent.premises, x ∉ p.vars := by
      simp only [Form.mem_varsAll, not_exists, not_and]
    rw [Rule.unbound, List.mem_filter, Rule.conclusionOnly, Sequent.mem_conclusionAdditions,
      Formula.mem_varsAll, Bool.not_eq_true', ← Bool.not_eq_true,
      Form.matchInAnyOrder_contains h x, not_or, ← hpremises, Substitution.not_contains_iff]
    -- a variable that is in no premise is bound only if it was bound before
    constructor
    · intro hx
      exact ⟨hx.1.1, hx.1.2, hx.2.1⟩
    · intro hx
      exact ⟨⟨hx.1, hx.2.1⟩, hx.2.2, hx.2.1⟩

namespace Calculus

variable {c : Calculus} {key : String} {rule : Rule} {premises : List Form}
  {extra σ : Substitution}

/-! ### The checks -/

theorem find?_eq_none_iff :
    find? c.rules key = none ↔ ∀ rule ∈ c.rules, rule.name ≠ key ∧ rule.abbreviation ≠ key := by
  simp only [find?, List.find?_eq_none, Rule.isCalled_iff, not_or, ne_eq]

theorem infer_of_unknown (h : find? c.rules key = none) :
    c.infer key premises extra = .error (.unknownRule key) := by
  simp only [infer, Calculus.rule, h]
  rfl

theorem infer_of_error {cause : MatchError} (hrule : c.rule key = .ok rule)
    (h : Form.matchInAnyOrder rule.sequent.premises premises extra = .error cause) :
    c.infer key premises extra = .error (.noMatch rule.name cause) := by
  simp only [infer, hrule, bind, Except.bind, h]
  rfl

theorem infer_of_ok (hrule : c.rule key = .ok rule)
    (h : Form.matchInAnyOrder rule.sequent.premises premises extra = .ok σ) :
    c.infer key premises extra =
      if rule.unbound σ = [] then .ok ⟨σ, rule.sequent.conclusions.map σ.apply⟩
      else .error (.unboundSymbols rule.name (rule.unbound σ)) := by
  simp only [infer, hrule, bind, Except.bind, h, Rule.unbound, List.isEmpty_iff]
  rfl

/-- What an inference returns, taken apart: a match, with nothing left unbound. -/
theorem exists_of_infer_eq_ok {inference : Inference} (h : c.infer key premises extra = .ok inference) :
    ∃ rule, c.rule key = .ok rule ∧
      Form.matchInAnyOrder rule.sequent.premises premises extra = .ok inference.bindings ∧
      rule.unbound inference.bindings = [] ∧
      inference.conclusions = rule.sequent.conclusions.map inference.bindings.apply := by
  have hfound : ∃ rule, c.rule key = .ok rule := by
    unfold infer at h
    obtain ⟨rule, hrule, _⟩ := Except.bind_eq_ok.mp h
    exact ⟨rule, hrule⟩
  obtain ⟨rule, hrule⟩ := hfound
  cases hmatch : Form.matchInAnyOrder rule.sequent.premises premises extra with
  | error cause =>
    rw [infer_of_error hrule hmatch] at h
    cases h
  | ok σ =>
    rw [infer_of_ok hrule hmatch] at h
    by_cases hunbound : rule.unbound σ = []
    · rw [if_pos hunbound] at h
      cases h
      exact ⟨rule, hrule, hmatch, hunbound, rfl⟩
    · rw [if_neg hunbound] at h
      cases h

/-! ### Concrete conclusions -/

/-- A conclusion holds no variable if the premises and the given bindings hold none. -/
theorem isConcrete_of_infer {inference : Inference} {f : Formula}
    (hpremises : ∀ p ∈ premises, p.vars = [])
    (hextra : ∀ x g, extra.get? x = some g → g.isConcrete = true)
    (h : c.infer key premises extra = .ok inference) (hf : f ∈ inference.conclusions) :
    f.isConcrete = true := by
  obtain ⟨rule, _, hmatch, hunbound, hconclusions⟩ := exists_of_infer_eq_ok h
  obtain ⟨hextends, hperm⟩ := Form.matchInAnyOrder_sound hmatch
  rw [hconclusions] at hf
  obtain ⟨t, ht, rfl⟩ := List.mem_map.mp hf
  rw [Formula.isConcrete_iff, List.eq_nil_iff_forall_not_mem]
  intro x hx
  -- the variable comes from what a variable `y` of the template stands for
  obtain ⟨y, hy, hxy⟩ := (Substitution.mem_vars_apply t).mp hx
  by_cases hbound : extra.get? y = none
  · have hsomewhere : ∃ p ∈ rule.sequent.premises, y ∈ p.vars := by
      by_contra hnone
      have hmissing : y ∈ rule.unbound inference.bindings := by
        refine ((Rule.missing_unbound hmatch).mem_iff y).mpr ⟨⟨t, ht, hy⟩, ?_, hbound⟩
        intro p hp hmem
        exact hnone ⟨p, hp, hmem⟩
      rw [hunbound] at hmissing
      exact List.not_mem_nil hmissing
    -- then `x` would be in the premise that an instance of this template is
    obtain ⟨p, hp, hyp⟩ := hsomewhere
    have hinstance : inference.bindings.applyForm p ∈ premises :=
      hperm.mem_iff.mpr (List.mem_map_of_mem hp)
    have hxp : x ∈ (inference.bindings.applyForm p).vars :=
      (Substitution.mem_vars_applyForm p).mpr ⟨y, hyp, hxy⟩
    rw [hpremises _ hinstance] at hxp
    exact List.not_mem_nil hxp
  · obtain ⟨g, hg⟩ := Option.ne_none_iff_exists'.mp hbound
    rw [hextends.respects y g hg, (Formula.isConcrete_iff g).mp (hextra y g hg)] at hxy
    exact List.not_mem_nil hxy

/-! ### The outcomes -/

/-- The outcomes of an inference with a rule, each with what leads to it. -/
theorem infer_cases (hrule : c.rule key = .ok rule) (premises : List Form) (extra : Substitution) :
    (rule.sequent.premises.length ≠ premises.length ∧ c.infer key premises extra =
      .error (.noMatch rule.name (.arity rule.sequent.premises.length premises.length))) ∨
    (rule.sequent.premises.length = premises.length ∧ ¬ rule.Applies premises extra ∧
      c.infer key premises extra = .error (.noMatch rule.name .noMapping)) ∨
    (rule.sequent.premises.length = premises.length ∧ rule.Applies premises extra ∧
      ∃ symbols, rule.Missing extra symbols ∧ symbols ≠ [] ∧
        c.infer key premises extra = .error (.unboundSymbols rule.name symbols)) ∨
    (rule.sequent.premises.length = premises.length ∧ rule.Applies premises extra ∧
      rule.Missing extra [] ∧ ∃ inference, c.infer key premises extra = .ok inference) := by
  by_cases hlength : rule.sequent.premises.length = premises.length
  · right
    by_cases happlies : rule.Applies premises extra
    · right
      obtain ⟨σ, hmatch⟩ := Rule.applies_iff.mp happlies
      have hmissing := Rule.missing_unbound hmatch
      by_cases hunbound : rule.unbound σ = []
      · rw [hunbound] at hmissing
        refine .inr ⟨hlength, happlies, hmissing, ⟨σ, rule.sequent.conclusions.map σ.apply⟩, ?_⟩
        rw [infer_of_ok hrule hmatch, if_pos hunbound]
      · refine .inl ⟨hlength, happlies, rule.unbound σ, hmissing, hunbound, ?_⟩
        rw [infer_of_ok hrule hmatch, if_neg hunbound]
    · refine .inl ⟨hlength, happlies, infer_of_error hrule ?_⟩
      rw [Form.matchInAnyOrder_eq_noMapping_iff hlength, Option.eq_none_iff_forall_ne_some]
      intro σ hσ
      exact happlies (Rule.applies_iff.mpr ⟨σ, Form.matchInAnyOrder_eq_ok_iff.mpr ⟨hlength, hσ⟩⟩)
  · exact .inl ⟨hlength, infer_of_error hrule (Form.matchInAnyOrder_of_length_ne hlength)⟩

theorem infer_eq_unknownRule_iff :
    c.infer key premises extra = .error (.unknownRule key) ↔ find? c.rules key = none := by
  refine ⟨?_, infer_of_unknown⟩
  intro h
  by_contra hfound
  obtain ⟨rule, hrule⟩ := Option.ne_none_iff_exists'.mp hfound
  -- with a rule, every other failure is one of matching or of binding
  rcases infer_cases (rule_eq_ok_iff.mpr hrule) premises extra with
    ⟨_, h'⟩ | ⟨_, _, h'⟩ | ⟨_, _, _, _, _, h'⟩ | ⟨_, _, _, _, h'⟩
  all_goals
    rw [h'] at h
    cases h

/-- **An inference meets its specification.** In an accepted calculus, exactly one of five things
    happens, and the checks come in this order: no rule has the name; the number of premises is
    wrong; no substitution that extends the given bindings makes the templates into the premises,
    in whatever order; variables of conclusions are missing, all of which are listed; or the
    conclusions are returned, one for each template, as instances under bindings that make the
    templates into the premises. Conclusions from what is concrete are concrete. -/
theorem infer_exact (hc : c.Accepted) (key : String) (premises : List Form) (extra : Substitution) :
    (c.infer key premises extra = .error (.unknownRule key) ↔
      ∀ rule ∈ c.rules, rule.name ≠ key ∧ rule.abbreviation ≠ key) ∧
    (∀ rule ∈ c.rules, rule.name = key ∨ rule.abbreviation = key →
      (c.infer key premises extra =
          .error (.noMatch rule.name (.arity rule.sequent.premises.length premises.length)) ↔
        rule.sequent.premises.length ≠ premises.length) ∧
      (rule.sequent.premises.length = premises.length →
        (c.infer key premises extra = .error (.noMatch rule.name .noMapping) ↔
          ¬ rule.Applies premises extra) ∧
        (rule.Applies premises extra →
          ∃ symbols, rule.Missing extra symbols ∧
            (c.infer key premises extra = .error (.unboundSymbols rule.name symbols) ↔
              symbols ≠ []) ∧
            (symbols = [] → ∃ inference, c.infer key premises extra = .ok inference ∧
              inference.bindings.Extends extra ∧
              premises.Perm (rule.sequent.premises.map inference.bindings.applyForm) ∧
              inference.conclusions =
                rule.sequent.conclusions.map inference.bindings.apply)))) ∧
    ((∀ p ∈ premises, p.vars = []) → (∀ x f, extra.get? x = some f → f.isConcrete = true) →
      ∀ inference, c.infer key premises extra = .ok inference →
        ∀ f ∈ inference.conclusions, f.isConcrete = true) := by
  refine ⟨infer_eq_unknownRule_iff.trans find?_eq_none_iff, ?_, ?_⟩
  · intro rule hmem hcalled
    have hrule := hc.rule_eq_ok hmem (Rule.isCalled_iff.mpr hcalled)
    rcases infer_cases hrule premises extra with
      ⟨hlength, h⟩ | ⟨hlength, happlies, h⟩ | ⟨hlength, happlies, symbols, hmissing, hne, h⟩ |
        ⟨hlength, happlies, hmissing, inference, h⟩
    · simp [h, hlength]
    · simp [h, hlength, happlies]
    · refine ⟨by simp [h, hlength], fun _ => ⟨by simp [h, happlies], fun _ => ?_⟩⟩
      exact ⟨symbols, hmissing, by simp [h, hne], fun hnil => absurd hnil hne⟩
    · refine ⟨by simp [h, hlength], fun _ => ⟨by simp [h, happlies], fun _ => ?_⟩⟩
      exact ⟨[], hmissing, by simp [h], fun _ => ⟨inference, h, infer_eq_ok hrule h⟩⟩
  · intro hpremises hextra inference h f hf
    exact isConcrete_of_infer hpremises hextra h hf

/-- From a variable to its disjunction with another one. -/
def sampleAddition : Rule where
  name := "Addition"
  abbreviation := "Add"
  sequent := ⟨[.formula (.schema "P")], [.app ⟨"Disjunction", .infixed⟩ [.schema "P", .schema "Q"]]⟩

/-- The sides of a conjunction may be exchanged. -/
def sampleCommutation : Rule where
  name := "Commutation"
  abbreviation := "Comm"
  sequent :=
    ⟨[], [.app ⟨"Biconditional", .infixed⟩
      [.app ⟨"Conjunction", .infixed⟩ [.schema "P", .schema "Q"],
        .app ⟨"Conjunction", .infixed⟩ [.schema "Q", .schema "P"]]]⟩

/-- A calculus with addition and commutation. -/
def sample : Calculus :=
  let premise : Rule := ⟨"Premise", "Pr", ⟨[], [.schema "P"]⟩, none⟩
  { rules := [premise, sampleAddition, sampleCommutation]
    roles := { assertion := "Premise" }
    equivalence := some ⟨"Biconditional", .infixed⟩
    assertionRule := premise
    subproofRule := premise }

theorem accepted_sample : sample.Accepted :=
  ⟨sample.rules, sample.roles, sample.equivalence, {}, rfl⟩

/-- The premise of an addition. -/
def samplePremises : List Form := [.formula (.proposition "A")]

/-- A formula for the second variable of an addition. -/
def sampleBindings : Substitution := Substitution.empty.insert "Q" (.proposition "B")

/-- An addition without a formula for its second variable fails, and with one it is concrete. -/
theorem infer_exact_sampleAddition :
    sampleAddition.Applies samplePremises .empty ∧
      (∃ symbols, sampleAddition.Missing .empty symbols ∧ symbols = ["Q"] ∧
        sample.infer "Add" samplePremises .empty = .error (.unboundSymbols "Addition" symbols)) ∧
      ∃ inference, sample.infer "Add" samplePremises sampleBindings = .ok inference ∧
        ∀ f ∈ inference.conclusions, f.isConcrete = true := by
  have hrule : sampleAddition ∈ sample.rules := .tail _ (.head _)
  have happlies : sampleAddition.Applies samplePremises .empty := Rule.applies_iff.mpr ⟨_, rfl⟩
  obtain ⟨_, hall, _⟩ := infer_exact accepted_sample "Add" samplePremises .empty
  obtain ⟨symbols, hmissing, hfails, hok⟩ :=
    ((hall sampleAddition hrule (.inr rfl)).2 rfl).2 happlies
  have hunbound : sample.infer "Add" samplePremises .empty =
      .error (.unboundSymbols "Addition" ["Q"]) := rfl
  have hne : symbols ≠ [] := by
    intro hnil
    obtain ⟨inference, h, _⟩ := hok hnil
    rw [hunbound] at h
    cases h
  refine ⟨happlies, ⟨symbols, hmissing, ?_, hfails.mpr hne⟩, _, rfl, ?_⟩
  · have h := hfails.mpr hne
    rw [hunbound] at h
    cases h
    rfl
  · refine (infer_exact accepted_sample "Add" samplePremises sampleBindings).2.2 ?_ ?_ _ rfl
    · intro p hp
      rw [List.mem_singleton.mp hp]
      rfl
    · intro x f hx
      rw [sampleBindings, Substitution.get?_insert] at hx
      split at hx <;> cases hx
      rfl

end Calculus

end NaturalDeduction
