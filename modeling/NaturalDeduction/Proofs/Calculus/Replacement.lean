import NaturalDeduction.Proofs.Calculus.Inference
import NaturalDeduction.Proofs.Formula.Path

/-! # What a replacement returns, and when it fails

    A rule of replacement is tried in two directions, the second one without
    the bindings that the first one left behind. The side that is matched binds
    its own variables and no others; what the other side has besides is missing.

    The premise is concrete, so that the variables bound stand for concrete
    formulas. Hence the instance of the other side holds the missing variables
    and no others, and without any it is concrete. It takes the place of the
    part that was selected, and nothing else in the premise changes: every
    congruence that relates the sides of the rule relates the premise with the
    result.
-/

namespace NaturalDeduction

/-- Some substitution makes the template into the formula. -/
def Formula.InstanceOf (f t : Formula) : Prop := ∃ σ : Substitution, σ.apply t = f

/-- The bindings that matching a template from scratch ends with: they make the template into the
    formula, and bind its variables only. -/
structure Substitution.Instantiates (σ : Substitution) (t f : Formula) : Prop where
  apply_eq : σ.apply t = f
  contains_iff : ∀ x, σ.contains x = true ↔ x ∈ t.vars

/-- The variables of the side `other` that do not occur in the side `chosen`, in ascending order. -/
structure Formula.Lacking (chosen other : Formula) (symbols : List String) : Prop where
  ascending : symbols.Pairwise (· < ·)
  mem_iff : ∀ x, x ∈ symbols ↔ x ∈ other.vars ∧ x ∉ chosen.vars

/-! ### One side -/

section OneSide

variable {t f other : Formula} {σ τ : Substitution}

theorem Formula.instantiates_of_matchWith (h : t.matchWith f .empty = (true, σ)) :
    σ.Instantiates t f := by
  obtain ⟨_, hbinds, happly⟩ := matchWith_sound t f .empty σ h
  have honly := matchWith_onlyBinds t f .empty
  rw [h] at honly
  refine ⟨happly, fun x => ?_⟩
  rw [Substitution.contains_iff]
  constructor
  · intro hx
    obtain ⟨g, hg⟩ := hx
    exact (honly x g hg).resolve_left (by simp)
  · exact hbinds x

/-- From scratch, a template matches exactly its instances. -/
theorem Formula.instanceOf_iff : f.InstanceOf t ↔ (t.matchWith f .empty).1 = true := by
  constructor
  · intro h
    obtain ⟨σ, hσ⟩ := h
    obtain ⟨τ, hτ, _⟩ := matchWith_complete t f .empty σ.extends_empty.respects hσ
    rw [hτ]
  · intro h
    exact ⟨_, (instantiates_of_matchWith (Prod.ext h rfl)).apply_eq⟩

/-- The instance of the other side holds the variables that are missing, if the matched formula is
    concrete. -/
theorem Substitution.Instantiates.lacking (h : σ.Instantiates t f) (hf : f.isConcrete = true) :
    t.Lacking other (σ.apply other).schemaVariables := by
  refine ⟨Names.pairwise_ofList _, fun x => ?_⟩
  rw [Formula.schemaVariables, Names.mem_ofList, Substitution.mem_vars_apply]
  have hvalue : ∀ y ∈ t.vars, (σ.apply (.schema y)).vars = [] := by
    intro y hy
    rw [List.eq_nil_iff_forall_not_mem]
    intro z hz
    have hzf : z ∈ f.vars := h.apply_eq ▸ (Substitution.mem_vars_apply t).mpr ⟨y, hy, hz⟩
    rw [(Formula.isConcrete_iff f).mp hf] at hzf
    exact List.not_mem_nil hzf
  have hfree : ∀ y, y ∉ t.vars → (σ.apply (.schema y)).vars = [y] := by
    intro y hy
    have hnone : σ.get? y = none := by
      rwa [← h.contains_iff, Substitution.not_contains_iff] at hy
    rw [Substitution.apply_schema, hnone]
    rfl
  constructor
  · intro hx
    obtain ⟨y, hy, hxy⟩ := hx
    by_cases hyt : y ∈ t.vars
    · rw [hvalue y hyt] at hxy
      exact absurd hxy List.not_mem_nil
    · rw [hfree y hyt, List.mem_singleton] at hxy
      rw [hxy]
      exact ⟨hy, hyt⟩
  · intro hx
    refine ⟨x, hx.1, ?_⟩
    rw [hfree x hx.2]
    exact List.mem_singleton_self x

end OneSide

/-! ### Both sides -/

/-- The side that is matched, and the one that takes its place. -/
def Direction.sides (left right : Formula) : Direction → Formula × Formula
  | .leftToRight => (left, right)
  | .rightToLeft => (right, left)

theorem Substitution.Instantiates.instanceOf_or {σ : Substitution} {direction : Direction}
    {left right f : Formula} (h : σ.Instantiates (direction.sides left right).1 f) :
    f.InstanceOf left ∨ f.InstanceOf right := by
  cases direction with
  | leftToRight => exact .inl ⟨σ, h.apply_eq⟩
  | rightToLeft => exact .inr ⟨σ, h.apply_eq⟩

/-- The left side is tried first, and the right side from scratch after it. -/
theorem matchSide_cases (left right f : Formula) :
    (¬ f.InstanceOf left ∧ ¬ f.InstanceOf right ∧ matchSide left right f = none) ∨
    ∃ σ direction, (direction = .leftToRight ↔ f.InstanceOf left) ∧
      σ.Instantiates (direction.sides left right).1 f ∧
      matchSide left right f = some (σ, direction, (direction.sides left right).2) := by
  rw [Formula.instanceOf_iff, Formula.instanceOf_iff]
  cases hleft : left.matchWith f .empty with
  | mk fits σ =>
    cases fits with
    | true =>
      refine .inr ⟨σ, .leftToRight, by simp, Formula.instantiates_of_matchWith hleft, ?_⟩
      simp only [matchSide, hleft, Direction.sides]
    | false =>
      cases hright : right.matchWith f .empty with
      | mk fits τ =>
        cases fits with
        | true =>
          refine .inr ⟨τ, .rightToLeft, by simp, Formula.instantiates_of_matchWith hright, ?_⟩
          simp only [matchSide, hleft, hright, Direction.sides]
        | false =>
          refine .inl ⟨by simp, by simp, ?_⟩
          simp only [matchSide, hleft, hright]

namespace Calculus

variable {c : Calculus} {key : String} {rule : Rule} {left right premise selected : Formula}
  {path : Path}

/-! ### The outcomes -/

section Outcomes

variable (hrule : c.rule key = .ok rule) (hsides : c.sides? rule = some (left, right))

include hrule hsides

theorem replace_of_outside (hat : premise.at? path = none) :
    c.replace key [.formula premise] path = .error (.targetOutsidePremise path) := by
  simp only [replace, hrule, bind, Except.bind, hsides, hat]
  rfl

theorem replace_of_invalid (hat : premise.at? path = some selected)
    (hmatch : matchSide left right selected = none) :
    c.replace key [.formula premise] path = .error .invalidTarget := by
  simp only [replace, hrule, bind, Except.bind, hsides, hat, hmatch]
  rfl

theorem replace_of_match {σ : Substitution} {direction : Direction} {other inContext : Formula}
    (hat : premise.at? path = some selected)
    (hmatch : matchSide left right selected = some (σ, direction, other))
    (hcontext : premise.replaceAt? path (σ.apply other) = some inContext) :
    c.replace key [.formula premise] path =
      if (σ.apply other).schemaVariables = [] then .ok ⟨σ, direction, σ.apply other, inContext⟩
      else .error (.unboundSymbols rule.name (σ.apply other).schemaVariables) := by
  simp only [replace, hrule, bind, Except.bind, hsides, hat, hmatch, hcontext, List.isEmpty_iff]
  rfl

/-- The outcomes of a replacement in a part of a concrete premise, each with what leads to it. -/
theorem replace_cases (hconcrete : premise.isConcrete = true)
    (hat : premise.at? path = some selected) :
    (¬ selected.InstanceOf left ∧ ¬ selected.InstanceOf right ∧
      c.replace key [.formula premise] path = .error .invalidTarget) ∨
    ∃ σ direction symbols, (direction = .leftToRight ↔ selected.InstanceOf left) ∧
      σ.Instantiates (direction.sides left right).1 selected ∧
      (direction.sides left right).1.Lacking (direction.sides left right).2 symbols ∧
      (symbols ≠ [] ∧
          c.replace key [.formula premise] path = .error (.unboundSymbols rule.name symbols) ∨
        symbols = [] ∧ ∃ inContext, c.replace key [.formula premise] path =
            .ok ⟨σ, direction, σ.apply (direction.sides left right).2, inContext⟩ ∧
          (σ.apply (direction.sides left right).2).isConcrete = true ∧
          Formula.Replaced selected (σ.apply (direction.sides left right).2) path premise
            inContext) := by
  have hselected : selected.isConcrete = true := by
    rw [Formula.isConcrete_iff] at hconcrete ⊢
    exact List.subset_nil.mp (hconcrete ▸ Formula.vars_subset_of_at? hat)
  rcases matchSide_cases left right selected with
    ⟨hleft, hright, hnone⟩ | ⟨σ, direction, hdirection, hσ, hmatch⟩
  · exact .inl ⟨hleft, hright, replace_of_invalid hrule hsides hat hnone⟩
  · right
    refine ⟨σ, direction, _, hdirection, hσ, hσ.lacking hselected, ?_⟩
    obtain ⟨inContext, hcontext, hreplaced⟩ :=
      Formula.exists_replaced hat (σ.apply (direction.sides left right).2)
    have hreplace := replace_of_match hrule hsides hat hmatch hcontext
    by_cases hbound : (σ.apply (direction.sides left right).2).schemaVariables = []
    · rw [if_pos hbound] at hreplace
      refine .inr ⟨hbound, inContext, hreplace, ?_, hreplaced⟩
      rw [Formula.isConcrete_iff]
      exact Names.ofList_eq_nil_iff.mp hbound
    · rw [if_neg hbound] at hreplace
      exact .inl ⟨hbound, hreplace⟩

theorem replace_eq_outside_iff (hconcrete : premise.isConcrete = true) :
    c.replace key [.formula premise] path = .error (.targetOutsidePremise path) ↔
      premise.at? path = none := by
  refine ⟨?_, replace_of_outside hrule hsides⟩
  intro h
  by_contra hat
  obtain ⟨selected, hselected⟩ := Option.ne_none_iff_exists'.mp hat
  -- a path that leads into the premise has other outcomes only
  rcases replace_cases hrule hsides hconcrete hselected with
    ⟨_, _, h'⟩ | ⟨_, _, _, _, _, _, ⟨_, h'⟩ | ⟨_, _, h', _⟩⟩
  all_goals
    rw [h'] at h
    cases h

/-- Related sides make the result related to the premise. -/
theorem related_of_replace {R : Formula → Formula → Prop} (hR : Formula.Congruence R)
    (hrel : ∀ σ : Substitution, R (σ.apply left) (σ.apply right)) {replacement : Replacement}
    (h : c.replace key [.formula premise] path = .ok replacement) :
    R premise replacement.inContext := by
  obtain ⟨left', right', premise', selected, other, hsides', hpremise, hat, hmatched, hformula,
    hcontext⟩ := replace_eq_ok hrule h
  obtain ⟨rfl, rfl⟩ := Prod.mk.inj (Option.some.inj (hsides.symm.trans hsides'))
  obtain rfl : premise = premise' := by simpa using hpremise
  obtain ⟨g, hg, hreplaced⟩ := Formula.exists_replaced hat replacement.formula
  obtain rfl : g = replacement.inContext := Option.some.inj (hg.symm.trans hcontext)
  refine hreplaced.related hR ?_
  rw [hformula]
  rcases hmatched with ⟨rfl, rfl⟩ | ⟨rfl, rfl⟩
  · exact hrel replacement.bindings
  · exact hR.equivalence.symm (hrel replacement.bindings)

end Outcomes

/-! ### Sides -/

/-- A rule of replacement has one conclusion, and this has two operands: the sides. -/
theorem sides?_eq_some (h : c.sides? rule = some (left, right)) :
    ∃ op, c.equivalence = some op ∧ rule.sequent.conclusions = [.app op [left, right]] := by
  unfold sides? Sequent.sides? at h
  split at h
  · next op left' right' _ hconclusions =>
    by_cases hop : some op = c.equivalence
    · rw [if_pos hop, Option.some.injEq, Prod.mk.injEq] at h
      obtain ⟨rfl, rfl⟩ := h
      exact ⟨op, hop.symm, hconclusions⟩
    · rw [if_neg hop] at h
      cases h
  · cases h

/-- A replacement is refused before any side is looked up, or the rule has both sides. -/
theorem replace_in_range (c : Calculus) (key : String) (premises : List Form) (path : Path) :
    c.replace key premises path = .error (.unknownRule key) ∨
    (∃ rule, c.rule key = .ok rule ∧
      c.replace key premises path = .error (.notAnEquivalence rule.name)) ∨
    ∃ rule conclusion left right, c.rule key = .ok rule ∧ c.sides? rule = some (left, right) ∧
      rule.sequent.conclusions[0]? = some conclusion ∧ conclusion.operands[0]? = some left ∧
      conclusion.operands[1]? = some right := by
  by_cases hfound : find? c.rules key = none
  · left
    simp only [replace, Calculus.rule, hfound]
    rfl
  · right
    obtain ⟨rule, hfind⟩ := Option.ne_none_iff_exists'.mp hfound
    have hrule := rule_eq_ok_iff.mpr hfind
    by_cases hsides : c.sides? rule = none
    · left
      refine ⟨rule, hrule, ?_⟩
      simp only [replace, hrule, bind, Except.bind, hsides]
      rfl
    · right
      obtain ⟨⟨left, right⟩, hsides⟩ := Option.ne_none_iff_exists'.mp hsides
      obtain ⟨op, _, hconclusions⟩ := sides?_eq_some hsides
      refine ⟨rule, .app op [left, right], left, right, hrule, hsides, ?_, rfl, rfl⟩
      rw [hconclusions]
      rfl

/-- **A replacement keeps the meaning and touches nothing else.** With a rule of replacement of an
    accepted calculus and one concrete formula as premise: the path must lead into the premise, and
    what it leads to must be an instance of a side. The left side is preferred. Variables that the
    other side has besides are missing, and all of them are listed; if there are none, the instance
    of the other side is concrete and takes the place of the part that was selected, and the premise
    stays the same around it. So every congruence that relates all instances of the sides relates
    the premise with the result. No side of a rule is looked up that is not there, whatever the
    rule, the premises and the path. -/
theorem replace_exact (hc : c.Accepted) (hmem : rule ∈ c.rules)
    (hcalled : rule.name = key ∨ rule.abbreviation = key)
    (hsides : c.sides? rule = some (left, right)) (hconcrete : premise.isConcrete = true)
    (path : Path) :
    (c.replace key [.formula premise] path = .error (.targetOutsidePremise path) ↔
      premise.at? path = none) ∧
    (∀ selected, premise.at? path = some selected →
      (c.replace key [.formula premise] path = .error .invalidTarget ↔
        ¬ selected.InstanceOf left ∧ ¬ selected.InstanceOf right) ∧
      (selected.InstanceOf left ∨ selected.InstanceOf right →
        ∃ σ direction symbols, (direction = .leftToRight ↔ selected.InstanceOf left) ∧
          σ.Instantiates (direction.sides left right).1 selected ∧
          (direction.sides left right).1.Lacking (direction.sides left right).2 symbols ∧
          (c.replace key [.formula premise] path = .error (.unboundSymbols rule.name symbols) ↔
            symbols ≠ []) ∧
          (symbols = [] → ∃ inContext, c.replace key [.formula premise] path =
              .ok ⟨σ, direction, σ.apply (direction.sides left right).2, inContext⟩ ∧
            (σ.apply (direction.sides left right).2).isConcrete = true ∧
            Formula.Replaced selected (σ.apply (direction.sides left right).2) path premise
              inContext))) ∧
    (∀ R, Formula.Congruence R → (∀ σ : Substitution, R (σ.apply left) (σ.apply right)) →
      ∀ replacement, c.replace key [.formula premise] path = .ok replacement →
        R premise replacement.inContext) ∧
    (∀ key' premises' path', c.replace key' premises' path' = .error (.unknownRule key') ∨
      (∃ rule', c.rule key' = .ok rule' ∧
        c.replace key' premises' path' = .error (.notAnEquivalence rule'.name)) ∨
      ∃ rule' conclusion left' right', c.rule key' = .ok rule' ∧
        c.sides? rule' = some (left', right') ∧
        rule'.sequent.conclusions[0]? = some conclusion ∧
        conclusion.operands[0]? = some left' ∧ conclusion.operands[1]? = some right') := by
  have hrule := hc.rule_eq_ok hmem (Rule.isCalled_iff.mpr hcalled)
  refine ⟨replace_eq_outside_iff hrule hsides hconcrete, ?_, ?_, replace_in_range c⟩
  · intro selected hat
    rcases replace_cases hrule hsides hconcrete hat with
      ⟨hleft, hright, h⟩ | ⟨σ, direction, symbols, hdirection, hσ, hlacking, houtcome⟩
    · simp [h, hleft, hright]
    · have hinstance := hσ.instanceOf_or
      constructor
      · -- an instance of a side is not refused as a target
        have hvalid : c.replace key [.formula premise] path ≠ .error .invalidTarget := by
          rcases houtcome with ⟨_, h⟩ | ⟨_, _, h, _⟩ <;> simp [h]
        simp only [hvalid, false_iff]
        tauto
      · intro _
        refine ⟨σ, direction, symbols, hdirection, hσ, hlacking, ?_, ?_⟩
        · rcases houtcome with ⟨hne, h⟩ | ⟨hnil, _, h, _⟩
          · simp [h, hne]
          · simp [h, hnil]
        · intro hnil
          exact houtcome.resolve_left (fun hne => hne.1 hnil) |>.2
  · intro R hR hrel replacement h
    exact related_of_replace hrule hsides hR hrel h

/-- The conjunction of two formulas. -/
def sampleConjunction (f g : Formula) : Formula := .app ⟨"Conjunction", .infixed⟩ [f, g]

/-- The negation of a conjunction. -/
def samplePremise : Formula :=
  .app ⟨"Negation", .prefixed⟩ [sampleConjunction (.proposition "A") (.proposition "B")]

/-- Commutation under a negation: both sides match, and the left one is taken. -/
theorem replace_exact_samplePremise :
    sample.sides? sampleCommutation =
        some (sampleConjunction (.schema "P") (.schema "Q"),
          sampleConjunction (.schema "Q") (.schema "P")) ∧
      ∃ replacement, sample.replace "Comm" [.formula samplePremise] [0] = .ok replacement ∧
        replacement.direction = .leftToRight ∧ replacement.formula.isConcrete = true ∧
        Formula.Replaced (sampleConjunction (.proposition "A") (.proposition "B"))
          replacement.formula [0] samplePremise replacement.inContext ∧
        ∀ R, Formula.Congruence R →
          (∀ σ : Substitution, R (σ.apply (sampleConjunction (.schema "P") (.schema "Q")))
            (σ.apply (sampleConjunction (.schema "Q") (.schema "P")))) →
          R samplePremise replacement.inContext := by
  have hrule : sampleCommutation ∈ sample.rules := .tail _ (.tail _ (.head _))
  have hsides : sample.sides? sampleCommutation =
      some (sampleConjunction (.schema "P") (.schema "Q"),
        sampleConjunction (.schema "Q") (.schema "P")) := rfl
  have hconcrete : samplePremise.isConcrete = true := rfl
  obtain ⟨_, htarget, hcongruence, _⟩ :=
    replace_exact accepted_sample hrule (.inr rfl) hsides hconcrete [0]
  have hinstance : (sampleConjunction (.proposition "A") (.proposition "B")).InstanceOf
      (sampleConjunction (.schema "P") (.schema "Q")) := Formula.instanceOf_iff.mpr rfl
  obtain ⟨σ, direction, symbols, hdirection, _, _, hfails, hok⟩ :=
    (htarget _ rfl).2 (.inl hinstance)
  have hnil : symbols = [] := by
    by_contra hne
    cases hfails.mpr hne
  obtain ⟨inContext, h, hresult, hreplaced⟩ := hok hnil
  exact ⟨hsides, _, h, hdirection.mpr hinstance, hresult, hreplaced,
    fun R hR hrel => hcongruence R hR hrel _ h⟩

end Calculus

end NaturalDeduction
