import Mathlib.Data.List.Induction
import NaturalDeduction.Proofs.Calculus

/-! # Faults of rules

    Rules are refused for the first fault among them. A rule is at fault by
    itself, if it has too many premises, or by those before it, if one of them
    is called like it.

    What one more rule adds is said once for lists without a fault
    (`faultless_concat`) and once for the check
    (`checkRules_concat_eq_error_iff`), so that by induction from the end of a
    list the check finds a fault if and only if there is one, and finds the
    first.
-/

namespace NaturalDeduction

/-! ### Faults -/

/-- Some rule of the list is called `key`. -/
def Named (rules : List Rule) (key : String) : Prop := ∃ r ∈ rules, r.isCalled key = true

namespace Rule

/-- No string is a name or abbreviation of both rules. -/
def Apart (r s : Rule) : Prop := ∀ key, ¬ (r.isCalled key = true ∧ s.isCalled key = true)

/-- What is wrong with a rule that stands after others. The number of its premises comes first, then
    its name, then its abbreviation. -/
inductive Fault (limit : Nat) (before : List Rule) (r : Rule) : CalculusError → Prop
  | premises (hlimit : limit < r.premiseCount) :
    Fault limit before r (.tooManyPremises r.name r.premiseCount limit)
  | name (hlimit : r.premiseCount ≤ limit) (hname : Named before r.name) :
    Fault limit before r (.duplicateRule r.name)
  | abbreviation (hlimit : r.premiseCount ≤ limit) (hname : ¬ Named before r.name)
      (habbreviation : Named before r.abbreviation) :
    Fault limit before r (.duplicateRule r.abbreviation)

variable {limit : Nat} {before before' : List Rule} {r : Rule} {e : CalculusError}

theorem exists_fault_iff : (∃ e, r.Fault limit before e) ↔
    limit < r.premiseCount ∨ Named before r.name ∨ Named before r.abbreviation := by
  constructor
  · rintro ⟨e, hfault⟩
    cases hfault with
    | premises hlimit => exact .inl hlimit
    | name _ hname => exact .inr (.inl hname)
    | abbreviation _ _ habbreviation => exact .inr (.inr habbreviation)
  · intro h
    by_cases hlimit : limit < r.premiseCount
    · exact ⟨_, .premises hlimit⟩
    · have hle := Nat.le_of_not_lt hlimit
      by_cases hname : Named before r.name
      · exact ⟨_, .name hle hname⟩
      · have habbreviation := (h.resolve_left hlimit).resolve_left hname
        exact ⟨_, .abbreviation hle hname habbreviation⟩

/-- Faults depend on how the rules before are called, and on nothing else of them. -/
theorem Fault.congr (hnamed : ∀ key, Named before key ↔ Named before' key)
    (h : r.Fault limit before e) : r.Fault limit before' e := by
  cases h with
  | premises hlimit => exact .premises hlimit
  | name hle hname => exact .name hle ((hnamed _).mp hname)
  | abbreviation hle hname habbreviation =>
    exact .abbreviation hle (mt (hnamed _).mpr hname) ((hnamed _).mp habbreviation)

theorem fault_reverse : r.Fault limit before.reverse e ↔ r.Fault limit before e := by
  have hnamed (key : String) : Named before.reverse key ↔ Named before key := by
    simp only [Named, List.mem_reverse]
  exact ⟨.congr hnamed, .congr fun key => (hnamed key).symm⟩

/-- A rule is apart from those before it if none of them has its name or its abbreviation. -/
theorem apart_iff : (∀ s ∈ before, s.Apart r) ↔
    ¬ Named before r.name ∧ ¬ Named before r.abbreviation := by
  constructor
  · intro h
    constructor
    · rintro ⟨s, hs, hcalled⟩
      exact h s hs r.name ⟨hcalled, isCalled_iff.mpr (.inl rfl)⟩
    · rintro ⟨s, hs, hcalled⟩
      exact h s hs r.abbreviation ⟨hcalled, isCalled_iff.mpr (.inr rfl)⟩
  · rintro ⟨hname, habbreviation⟩ s hs key ⟨hcalled, hr⟩
    obtain rfl | rfl := isCalled_iff.mp hr
    · exact hname ⟨s, hs, hcalled⟩
    · exact habbreviation ⟨s, hs, hcalled⟩

end Rule

/-- No rule has too many premises, and no two rules have a name in common. -/
structure Faultless (limit : Nat) (rules : List Rule) : Prop where
  premises_le : ∀ r ∈ rules, r.premiseCount ≤ limit
  apart : rules.Pairwise Rule.Apart

/-- The first rule with a fault has this one. -/
def FirstFault (limit : Nat) (rules : List Rule) (e : CalculusError) : Prop :=
  ∃ before r after, rules = before ++ r :: after ∧ Faultless limit before ∧ r.Fault limit before e

variable {limit : Nat} {rules : List Rule} {e : CalculusError}

theorem Faultless.nil : Faultless limit [] := ⟨by simp, .nil⟩

theorem faultless_concat {r : Rule} :
    Faultless limit (rules ++ [r]) ↔ Faultless limit rules ∧ ∀ e, ¬ r.Fault limit rules e := by
  have hfault : (∀ e, ¬ r.Fault limit rules e) ↔
      r.premiseCount ≤ limit ∧ ∀ s ∈ rules, s.Apart r := by
    rw [← not_exists, Rule.exists_fault_iff, Rule.apart_iff, not_or, not_or, Nat.not_lt]
  rw [hfault]
  constructor
  · intro h
    obtain ⟨hapart, _, hlast⟩ := List.pairwise_append.mp h.apart
    refine ⟨⟨fun s hs => h.premises_le s (List.mem_append_left _ hs), hapart⟩, ?_, ?_⟩
    · exact h.premises_le r (List.mem_append_right _ (List.mem_singleton_self r))
    · exact fun s hs => hlast s hs r (List.mem_singleton_self r)
  · rintro ⟨hrules, hle, hlast⟩
    constructor
    · intro s hs
      rcases List.mem_append.mp hs with hs | hs
      · exact hrules.premises_le s hs
      · rwa [List.mem_singleton.mp hs]
    · refine List.pairwise_append.mpr ⟨hrules.apart, List.pairwise_singleton _ _, ?_⟩
      intro s hs t ht
      rw [List.mem_singleton.mp ht]
      exact hlast s hs

/-! ### Checks -/

namespace Calculus

variable {before : List Rule} {r : Rule} {key : String}

theorem find?_isSome_iff : (find? rules key).isSome = true ↔ Named rules key := by
  unfold find? Named
  rw [List.find?_isSome]

/-- The check of one rule finds its fault. -/
theorem checkRules_singleton_eq_error_iff :
    checkRules limit before [r] = .error e ↔ r.Fault limit before e := by
  unfold checkRules
  constructor
  · intro h
    split at h
    · next hlimit =>
      cases h
      exact .premises hlimit
    · next hlimit =>
      have hle := Nat.le_of_not_lt hlimit
      split at h
      · next hname =>
        cases h
        exact .name hle (find?_isSome_iff.mp hname)
      · next hname =>
        rw [find?_isSome_iff] at hname
        split at h
        · next habbreviation =>
          cases h
          exact .abbreviation hle hname (find?_isSome_iff.mp habbreviation)
        · cases h
  · intro h
    cases h with
    | premises hlimit => rw [if_pos hlimit]
    | name hle hname => rw [if_neg (Nat.not_lt.mpr hle), if_pos (find?_isSome_iff.mpr hname)]
    | abbreviation hle hname habbreviation =>
      rw [← find?_isSome_iff] at hname habbreviation
      rw [if_neg (Nat.not_lt.mpr hle), if_neg hname, if_pos habbreviation]

theorem checkRules_append {later : List Rule} :
    checkRules limit before (rules ++ later) =
      (checkRules limit before rules >>= fun _ =>
        checkRules limit (rules.reverse ++ before) later) := by
  induction rules generalizing before with
  | nil => rfl
  | cons r rs ih =>
    rw [List.cons_append, checkRules, checkRules, ih, List.reverse_cons, List.append_assoc]
    split
    · rfl
    · split
      · rfl
      · split <;> rfl

/-- One rule more is checked if there was no fault so far. -/
theorem checkRules_concat_eq_error_iff :
    checkRules limit [] (rules ++ [r]) = .error e ↔
      checkRules limit [] rules = .error e ∨
        checkRules limit [] rules = .ok () ∧ r.Fault limit rules e := by
  rw [checkRules_append, Except.bind_eq_error, List.append_nil, checkRules_singleton_eq_error_iff,
    Rule.fault_reverse]
  constructor
  · rintro (h | ⟨⟨⟩, hok, hfault⟩)
    · exact .inl h
    · exact .inr ⟨hok, hfault⟩
  · rintro (h | ⟨hok, hfault⟩)
    · exact .inl h
    · exact .inr ⟨(), hok, hfault⟩

theorem checkRules_eq_ok_iff : checkRules limit [] rules = .ok () ↔ Faultless limit rules := by
  induction rules using List.reverseRecOn with
  | nil => exact iff_of_true rfl .nil
  | append_singleton rules r ih =>
    rw [faultless_concat, ← ih]
    constructor
    · intro h
      have hnone (e : CalculusError) : ¬ checkRules limit [] (rules ++ [r]) = .error e := by
        simp [h]
      simp only [checkRules_concat_eq_error_iff, not_or, not_and] at hnone
      cases hrules : checkRules limit [] rules with
      | error e => exact absurd hrules (hnone e).1
      | ok u => exact ⟨rfl, fun e => (hnone e).2 hrules⟩
    · rintro ⟨hok, hnone⟩
      cases hall : checkRules limit [] (rules ++ [r]) with
      | error e =>
        rcases checkRules_concat_eq_error_iff.mp hall with h | ⟨_, hfault⟩
        · rw [hok] at h
          cases h
        · exact absurd hfault (hnone e)
      | ok u => rfl

/-- **The check finds the first fault** if there is one. -/
theorem checkRules_eq_error_iff :
    checkRules limit [] rules = .error e ↔ FirstFault limit rules e := by
  constructor
  · intro h
    induction rules using List.reverseRecOn with
    | nil => cases h
    | append_singleton rules r ih =>
      obtain h | ⟨hok, hfault⟩ := checkRules_concat_eq_error_iff.mp h
      · obtain ⟨before, s, after, rfl, hbefore, hfault⟩ := ih h
        exact ⟨before, s, after ++ [r], by simp, hbefore, hfault⟩
      · exact ⟨rules, r, [], rfl, checkRules_eq_ok_iff.mp hok, hfault⟩
  · rintro ⟨before, r, after, rfl, hbefore, hfault⟩
    have hfirst : checkRules limit [] (before ++ [r]) = .error e :=
      checkRules_concat_eq_error_iff.mpr (.inr ⟨checkRules_eq_ok_iff.mpr hbefore, hfault⟩)
    rw [List.append_cons, checkRules_append, hfirst]
    rfl

end Calculus

end NaturalDeduction
