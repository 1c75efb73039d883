import NaturalDeduction.Calculus.Inference
import NaturalDeduction.Calculus.Replacement
import NaturalDeduction.Proofs.Except
import NaturalDeduction.Proofs.Matching

/-! # What calculi infer

    Two facts about a checked calculus that later proofs rest on:

    * **Names**: a rule of a checked calculus is found by its name and by its
      abbreviation, and no other rule is.
    * **Outcomes**: what an inference or a replacement returns is an instance
      of the rule under the bindings that it returns. Nothing else is known
      of the bindings.
-/

namespace NaturalDeduction

theorem Rule.isCalled_iff {rule : Rule} {key : String} :
    rule.isCalled key = true ↔ rule.name = key ∨ rule.abbreviation = key := by
  rw [Rule.isCalled, Bool.or_eq_true, beq_iff_eq, beq_iff_eq]

/-- The rule has no premises, and the atom `symbol` as its only conclusion. -/
structure Rule.Asserts (rule : Rule) (symbol : Symbol) : Prop where
  premises : rule.sequent.premises = []
  conclusions : rule.sequent.conclusions = [.atom symbol]

namespace Calculus

variable {c : Calculus} {key : String} {rule : Rule}

/-! ### Names -/

theorem rule_eq_ok_iff : c.rule key = .ok rule ↔ find? c.rules key = some rule := by
  unfold Calculus.rule
  cases find? c.rules key with
  | none => simp
  | some r => simp

theorem mem_of_find? {rules : List Rule} (h : find? rules key = some rule) :
    rule ∈ rules ∧ rule.isCalled key = true := by
  unfold find? at h
  have hcalled := List.find?_some h
  exact ⟨List.mem_of_find?_eq_some h, hcalled⟩

/-- Rules that pass the check are found by their names, and are not called like a rule before. -/
theorem find?_of_checkRules {limit : Nat} {before rules : List Rule}
    (h : checkRules limit before rules = .ok ()) (hmem : rule ∈ rules)
    (hcalled : rule.isCalled key = true) :
    find? before key = none ∧ find? rules key = some rule := by
  induction rules generalizing before with
  | nil => cases hmem
  | cons r rs ih =>
    rw [checkRules] at h
    split at h
    · cases h
    · split at h
      · cases h
      · next hname =>
        split at h
        · cases h
        · next habbr =>
          rcases List.mem_cons.mp hmem with rfl | htail
          · refine ⟨?_, by simp [find?, hcalled]⟩
            unfold Rule.isCalled at hcalled
            rw [Bool.or_eq_true, beq_iff_eq, beq_iff_eq] at hcalled
            rcases hcalled with rfl | rfl
            · exact Option.not_isSome_iff_eq_none.mp hname
            · exact Option.not_isSome_iff_eq_none.mp habbr
          · obtain ⟨hbefore, hfound⟩ := ih h htail
            -- the first rule is one of those before the others, and so is not called `key`
            have hfirst : ¬ r.isCalled key = true := by
              intro hr
              simp [find?, hr] at hbefore
            refine ⟨?_, ?_⟩
            · simpa [find?, hfirst] using hbefore
            · simpa [find?, hfirst] using hfound

/-- What a calculus that was accepted is made of. -/
theorem ofRules_eq_ok {rules : List Rule} {roles : Roles} {equivalence : Option Operator}
    {config : Config} (h : ofRules rules roles equivalence config = .ok c) :
    checkRules config.premiseLimit [] rules = .ok () ∧ c.rules = rules ∧
      findAssertion rules roles.assertion = .ok c.assertionRule ∧
      findSubproof rules c.assertionRule roles.subproof = .ok c.subproofRule ∧
      c.equivalence = equivalence := by
  unfold ofRules at h
  obtain ⟨u, hcheck, h⟩ := Except.bind_eq_ok.mp h
  obtain ⟨assertion, hassertion, h⟩ := Except.bind_eq_ok.mp h
  obtain ⟨subproof, hsubproof, h⟩ := Except.bind_eq_ok.mp h
  cases h
  exact ⟨hcheck, rfl, hassertion, hsubproof, rfl⟩

/-- The rule that brings premises into a derivation is one that asserts an atom. -/
theorem checkAssertion_eq_ok_iff {found : Option Rule} :
    checkAssertion key found = .ok rule ↔ found = some rule ∧ ∃ symbol, rule.Asserts symbol := by
  constructor
  · intro h
    unfold checkAssertion at h
    split at h
    · cases h
    · next r =>
      split at h
      · next hpremises =>
        split at h
        · next symbol hconclusions =>
          cases h
          exact ⟨rfl, symbol, List.isEmpty_iff.mp hpremises, hconclusions⟩
        · cases h
        · cases h
      · cases h
  · intro h
    obtain ⟨rfl, symbol, hasserts⟩ := h
    simp [checkAssertion, hasserts.premises, hasserts.conclusions]

theorem find?_of_findAssertion {rules : List Rule}
    (h : findAssertion rules key = .ok rule) : find? rules key = some rule :=
  (checkAssertion_eq_ok_iff.mp h).1

/-- The calculus was made from rules by the checks. -/
def Accepted (c : Calculus) : Prop :=
  ∃ rules roles equivalence config, ofRules rules roles equivalence config = .ok c

namespace Accepted

/-- A rule is found by its name. -/
theorem rule_eq_ok (h : c.Accepted) (hmem : rule ∈ c.rules)
    (hcalled : rule.isCalled key = true) : c.rule key = .ok rule := by
  obtain ⟨rules, roles, equivalence, config, hof⟩ := h
  obtain ⟨hcheck, hrules, _⟩ := ofRules_eq_ok hof
  rw [rule_eq_ok_iff, hrules]
  rw [hrules] at hmem
  exact (find?_of_checkRules hcheck hmem hcalled).2

theorem assertionRule_mem (h : c.Accepted) : c.assertionRule ∈ c.rules := by
  obtain ⟨rules, roles, equivalence, config, hof⟩ := h
  obtain ⟨_, hrules, hassertion, _⟩ := ofRules_eq_ok hof
  rw [hrules]
  exact (mem_of_find? (find?_of_findAssertion hassertion)).1

theorem asserts (h : c.Accepted) : ∃ symbol, c.assertionRule.Asserts symbol := by
  obtain ⟨rules, roles, equivalence, config, hof⟩ := h
  obtain ⟨_, _, hassertion, _⟩ := ofRules_eq_ok hof
  exact (checkAssertion_eq_ok_iff.mp hassertion).2

theorem subproofRule_mem (h : c.Accepted) : c.subproofRule ∈ c.rules := by
  have hmem := h.assertionRule_mem
  obtain ⟨rules, roles, equivalence, config, hof⟩ := h
  obtain ⟨_, hrules, _, hsubproof, _⟩ := ofRules_eq_ok hof
  rw [hrules] at hmem ⊢
  unfold findSubproof at hsubproof
  split at hsubproof
  · rw [← Except.ok.inj hsubproof]
    exact hmem
  · split at hsubproof
    · next r hr =>
      rw [← Except.ok.inj hsubproof]
      exact (mem_of_find? hr).1
    · cases hsubproof

end Accepted

/-! ### Outcomes -/

/-- An inference has premises that are instances of those of the rule, and returns the instances of
    the conclusions. Bindings that were given are kept. -/
theorem infer_eq_ok {premises : List Form} {extra : Substitution} {inference : Inference}
    (hrule : c.rule key = .ok rule) (h : c.infer key premises extra = .ok inference) :
    inference.bindings.Extends extra ∧
      premises.Perm (rule.sequent.premises.map inference.bindings.applyForm) ∧
      inference.conclusions = rule.sequent.conclusions.map inference.bindings.apply := by
  unfold infer at h
  obtain ⟨rule', hrule', h⟩ := Except.bind_eq_ok.mp h
  obtain rfl : rule = rule' := Except.ok.inj (hrule.symm.trans hrule')
  split at h
  · cases h
  · next σ hσ =>
    obtain ⟨hextends, hperm⟩ := Form.matchInAnyOrder_sound hσ
    dsimp only at h
    split at h
    · cases h
      exact ⟨hextends, hperm, rfl⟩
    · cases h

/-- One side of an equivalence becomes the formula, and the other one is returned. -/
theorem matchSide_eq_some {left right f other : Formula} {σ : Substitution} {direction : Direction}
    (h : matchSide left right f = some (σ, direction, other)) :
    (σ.apply left = f ∧ other = right) ∨ (σ.apply right = f ∧ other = left) := by
  unfold matchSide at h
  split at h
  · next τ hτ =>
    cases h
    exact .inl ⟨(Formula.matchWith_sound _ _ _ _ hτ).2.2, rfl⟩
  · split at h
    · next τ hτ =>
      cases h
      exact .inr ⟨(Formula.matchWith_sound _ _ _ _ hτ).2.2, rfl⟩
    · cases h

/-- A replacement puts the instance of one side of an equivalence in the place of the other's. -/
theorem replace_eq_ok {premises : List Form} {path : Path} {replacement : Replacement}
    (hrule : c.rule key = .ok rule) (h : c.replace key premises path = .ok replacement) :
    ∃ left right premise selected other, c.sides? rule = some (left, right) ∧
      premises = [.formula premise] ∧ premise.at? path = some selected ∧
      ((replacement.bindings.apply left = selected ∧ other = right) ∨
        (replacement.bindings.apply right = selected ∧ other = left)) ∧
      replacement.formula = replacement.bindings.apply other ∧
      premise.replaceAt? path replacement.formula = some replacement.inContext := by
  unfold replace at h
  obtain ⟨rule', hrule', h⟩ := Except.bind_eq_ok.mp h
  obtain rfl : rule = rule' := Except.ok.inj (hrule.symm.trans hrule')
  split at h
  · cases h
  · next left right hsides =>
    split at h
    · cases h
    · next premise _ =>
      split at h
      · cases h
      · next selected hat =>
        split at h
        · cases h
        · next σ direction other hmatch =>
          dsimp only at h
          split at h
          · split at h
            · next inContext hreplace =>
              cases h
              exact ⟨left, right, premise, selected, other, hsides, rfl, hat,
                matchSide_eq_some hmatch, rfl, hreplace⟩
            · cases h
          · cases h
    · cases h

end Calculus

end NaturalDeduction
