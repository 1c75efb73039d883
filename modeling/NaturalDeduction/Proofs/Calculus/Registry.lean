import Mathlib.Data.List.FinRange
import NaturalDeduction.Calculus.Index
import NaturalDeduction.Proofs.Calculus.Faults

/-! # Which rules make a registry

    * **Places**: the index that is made while rules are checked says of each
      name where the only rule of that name stands. The invariant is that it
      does so for the rules entered so far (`RuleIndex.Lists`); entering one
      more rule keeps it (`Lists.step`) or finds a fault of that rule
      (`Lists.enterRule_eq_error_iff`).
    * **Registries**: a registry is made exactly if there is no fault and the
      roles can be filled, and then finds every rule by its names and no other.
-/

namespace NaturalDeduction

variable {limit : Nat} {rules : List Rule} {e : CalculusError}

/-! ### Places -/

namespace RuleIndex

section

variable {n : Nat} {index index' : RuleIndex n} {place : Fin n} {key : String}

theorem place?_insert (x : String) :
    (index.insert key place).place? x = if x = key then some place else index.place? x :=
  lookup_insertEntry key x place index

theorem enter_eq_ok_iff : enter place index key = .ok index' ↔
    (∀ other, index.place? key = some other → other = place) ∧
      index.insert key place = index' := by
  unfold enter
  cases index.place? key with
  | none => simp
  | some other => by_cases hother : other = place <;> simp [hother]

theorem enter_eq_error_iff : enter place index key = .error e ↔
    .duplicateRule key = e ∧ ∃ other, index.place? key = some other ∧ other ≠ place := by
  unfold enter
  cases index.place? key with
  | none => simp
  | some other => by_cases hother : other = place <;> simp [hother]

end

/-- The index leads from the names of the first `count` rules to their places, and from nothing else
    to any place. -/
def Lists (rules : List Rule) (count : Nat) (index : RuleIndex rules.length) : Prop :=
  ∀ key i, index.place? key = some i ↔ i.val < count ∧ (rules.get i).isCalled key = true

variable {index index' : RuleIndex rules.length} {place : Fin rules.length} {key : String}

theorem Lists.named_iff {count : Nat} (h : Lists rules count index) :
    Named (rules.take count) key ↔ ∃ i, index.place? key = some i := by
  constructor
  · rintro ⟨r, hr, hcalled⟩
    obtain ⟨i, hi, rfl⟩ := List.mem_take_iff_getElem.mp hr
    have hlt := Nat.lt_min.mp hi
    exact ⟨⟨i, hlt.2⟩, (h key _).mpr ⟨hlt.1, hcalled⟩⟩
  · rintro ⟨i, hi⟩
    obtain ⟨hlt, hcalled⟩ := (h key i).mp hi
    have hmem := List.mem_take_iff_getElem.mpr ⟨i, Nat.lt_min.mpr ⟨hlt, i.isLt⟩, rfl⟩
    exact ⟨rules.get i, hmem, hcalled⟩

/-- Before a rule is entered, no name leads to its place. -/
theorem Lists.place?_ne (h : Lists rules place index) {other : Fin rules.length}
    (hother : index.place? key = some other) : other ≠ place := by
  rintro rfl
  exact Nat.lt_irrefl _ ((h key other).mp hother).1

/-- A name is refused if a rule before has it. -/
theorem Lists.enter_eq_error_iff (h : Lists rules place index) :
    enter place index key = .error e ↔
      .duplicateRule key = e ∧ Named (rules.take place) key := by
  rw [RuleIndex.enter_eq_error_iff, h.named_iff]
  refine and_congr_right fun _ => exists_congr fun other => ?_
  exact and_iff_left_of_imp h.place?_ne

/-- So is an abbreviation, once the name is entered; it may be the name again. -/
theorem Lists.enter_insert_eq_error_iff (h : Lists rules place index) {name : String}
    (hname : ¬ Named (rules.take place) name) :
    enter place (index.insert name place) key = .error e ↔
      .duplicateRule key = e ∧ Named (rules.take place) key := by
  by_cases hkey : key = name
  · rw [hkey, RuleIndex.enter_eq_error_iff, place?_insert, if_pos rfl]
    simp [hname]
  · rw [← h.enter_eq_error_iff, RuleIndex.enter_eq_error_iff, RuleIndex.enter_eq_error_iff,
      place?_insert, if_neg hkey]

/-- A rule is checked, and both its names are entered. -/
theorem enterRule_eq : enterRule limit rules index place =
    if (rules.get place).premiseCount > limit then
      .error (.tooManyPremises (rules.get place).name (rules.get place).premiseCount limit)
    else
      enter place index (rules.get place).name >>= fun index =>
        enter place index (rules.get place).abbreviation := by
  simp only [enterRule, List.foldlM_cons, List.foldlM_nil, bind_pure]

/-- A rule is refused for its fault. -/
theorem Lists.enterRule_eq_error_iff (h : Lists rules place index) :
    enterRule limit rules index place = .error e ↔
      (rules.get place).Fault limit (rules.take place) e := by
  rw [enterRule_eq]
  constructor
  · intro herror
    split at herror
    · next hlimit =>
      cases herror
      exact .premises hlimit
    · next hlimit =>
      have hle := Nat.le_of_not_lt hlimit
      obtain herror | ⟨index₁, hok, herror⟩ := Except.bind_eq_error.mp herror
      · obtain ⟨rfl, hname⟩ := h.enter_eq_error_iff.mp herror
        exact .name hle hname
      · have hname : ¬ Named (rules.take place) (rules.get place).name := by
          intro hname
          rw [h.enter_eq_error_iff.mpr ⟨rfl, hname⟩] at hok
          cases hok
        obtain ⟨_, rfl⟩ := enter_eq_ok_iff.mp hok
        obtain ⟨rfl, habbreviation⟩ := (h.enter_insert_eq_error_iff hname).mp herror
        exact .abbreviation hle hname habbreviation
  · intro hfault
    cases hfault with
    | premises hlimit => rw [if_pos hlimit]
    | name hle hname =>
      rw [if_neg (Nat.not_lt.mpr hle), h.enter_eq_error_iff.mpr ⟨rfl, hname⟩]
      rfl
    | abbreviation hle hname habbreviation =>
      have hok : enter place index (rules.get place).name =
          .ok (index.insert (rules.get place).name place) := by
        refine enter_eq_ok_iff.mpr ⟨?_, rfl⟩
        intro other hother
        exact absurd (h.named_iff.mpr ⟨other, hother⟩) hname
      rw [if_neg (Nat.not_lt.mpr hle), hok]
      exact (h.enter_insert_eq_error_iff hname).mpr ⟨rfl, habbreviation⟩

/-- Where a rule that was entered is found. -/
theorem place?_of_enterRule (hok : enterRule limit rules index place = .ok index') :
    index'.place? key =
      if (rules.get place).isCalled key = true then some place else index.place? key := by
  rw [enterRule_eq] at hok
  split at hok
  · cases hok
  · obtain ⟨index₁, hname, habbreviation⟩ := Except.bind_eq_ok.mp hok
    obtain ⟨_, rfl⟩ := enter_eq_ok_iff.mp hname
    obtain ⟨_, rfl⟩ := enter_eq_ok_iff.mp habbreviation
    rw [place?_insert, place?_insert]
    by_cases hcalled : (rules.get place).isCalled key = true
    · rw [if_pos hcalled]
      obtain rfl | rfl := Rule.isCalled_iff.mp hcalled
      · rw [if_pos rfl, ite_self]
      · rw [if_pos rfl]
    · obtain ⟨hname, habbreviation⟩ := not_or.mp (mt Rule.isCalled_iff.mpr hcalled)
      rw [if_neg hcalled, if_neg (Ne.symm habbreviation), if_neg (Ne.symm hname)]

/-- **One rule more is listed** once it is entered. -/
theorem Lists.step (h : Lists rules place index)
    (hok : enterRule limit rules index place = .ok index') : Lists rules (place + 1) index' := by
  intro key i
  rw [place?_of_enterRule hok]
  by_cases hcalled : (rules.get place).isCalled key = true
  · -- no rule before is called like this one
    have hnamed : ¬ Named (rules.take place) key := by
      intro hnamed
      have hfault : ∃ e, (rules.get place).Fault limit (rules.take place) e := by
        refine Rule.exists_fault_iff.mpr (.inr ?_)
        obtain rfl | rfl := Rule.isCalled_iff.mp hcalled
        · exact .inl hnamed
        · exact .inr hnamed
      obtain ⟨e, hfault⟩ := hfault
      rw [h.enterRule_eq_error_iff.mpr hfault] at hok
      cases hok
    rw [if_pos hcalled, Option.some_inj]
    constructor
    · intro hi
      subst hi
      exact ⟨Nat.lt_succ_self _, hcalled⟩
    · intro hi
      obtain ⟨hlt, hi⟩ := hi
      by_contra hne
      have hbefore : i.val < place := by
        have : place.val ≠ i.val := fun heq => hne (Fin.ext heq)
        omega
      exact hnamed (h.named_iff.mpr ⟨i, (h key i).mpr ⟨hbefore, hi⟩⟩)
  · rw [if_neg hcalled, h key i]
    constructor
    · intro hi
      exact ⟨Nat.lt_succ_of_lt hi.1, hi.2⟩
    · intro hi
      refine ⟨?_, hi.2⟩
      have hne : i.val ≠ place.val := by
        intro heq
        rw [Fin.ext heq] at hi
        exact hcalled hi.2
      omega

/-- The index of the first `count` rules. -/
def ofFirst (limit : Nat) (rules : List Rule) (count : Nat) :
    Except CalculusError (RuleIndex rules.length) :=
  ((List.finRange rules.length).take count).foldlM (enterRule limit rules) []

theorem ofFirst_succ {count : Nat} (h : count < rules.length) :
    ofFirst limit rules (count + 1) = (ofFirst limit rules count >>= fun index =>
      enterRule limit rules index ⟨count, h⟩) := by
  have hplaces : (List.finRange rules.length).take (count + 1) =
      (List.finRange rules.length).take count ++ [⟨count, h⟩] := by
    rw [List.take_succ_eq_append_getElem (by simpa using h), List.getElem_finRange]
    rfl
  rw [ofFirst, hplaces, List.foldlM_append]
  simp only [List.foldlM_cons, List.foldlM_nil, bind_pure, ofFirst]

theorem ofFirst_length : ofFirst limit rules rules.length = ofRules limit rules := by
  have hplaces : (List.finRange rules.length).take rules.length = List.finRange rules.length :=
    List.take_of_length_le (by simp)
  rw [ofFirst, hplaces, ofRules]

/-- **The first rules are listed,** or the first fault among them is found. -/
theorem ofFirst_cases (limit : Nat) {count : Nat} (hcount : count ≤ rules.length) :
    (∃ index, ofFirst limit rules count = .ok index ∧
      Calculus.checkRules limit [] (rules.take count) = .ok () ∧ Lists rules count index) ∨
    ∃ e, ofFirst limit rules count = .error e ∧
      Calculus.checkRules limit [] (rules.take count) = .error e := by
  induction count with
  | zero =>
    refine .inl ⟨[], rfl, rfl, ?_⟩
    intro key i
    simp [place?]
  | succ count ih =>
    have hrules : rules.take (count + 1) = rules.take count ++ [rules.get ⟨count, hcount⟩] :=
      List.take_succ_eq_append_getElem hcount
    rw [ofFirst_succ hcount, hrules]
    obtain ⟨index, hrun, hcheck, hlists⟩ | ⟨e, hrun, hcheck⟩ := ih (Nat.le_of_lt hcount)
    · have hlists : Lists rules (⟨count, hcount⟩ : Fin rules.length) index := hlists
      rw [hrun]
      cases hnext : enterRule limit rules index ⟨count, hcount⟩ with
      | error e =>
        have hfault := hlists.enterRule_eq_error_iff.mp hnext
        have hcheck' := Calculus.checkRules_concat_eq_error_iff.mpr (.inr ⟨hcheck, hfault⟩)
        exact .inr ⟨e, hnext, hcheck'⟩
      | ok index' =>
        refine .inl ⟨index', hnext, ?_, hlists.step hnext⟩
        rw [Calculus.checkRules_eq_ok_iff] at hcheck ⊢
        refine faultless_concat.mpr ⟨hcheck, ?_⟩
        intro e hfault
        rw [hlists.enterRule_eq_error_iff.mpr hfault] at hnext
        cases hnext
    · refine .inr ⟨e, ?_, Calculus.checkRules_concat_eq_error_iff.mpr (.inl hcheck)⟩
      rw [hrun]
      rfl

/-- The index of all rules is made if they pass the check. -/
theorem ofRules_cases (limit : Nat) (rules : List Rule) :
    (∃ index, ofRules limit rules = .ok index ∧
      Calculus.checkRules limit [] rules = .ok () ∧ Lists rules rules.length index) ∨
    ∃ e, ofRules limit rules = .error e ∧ Calculus.checkRules limit [] rules = .error e := by
  have hrun := ofFirst_cases limit (Nat.le_refl rules.length)
  rwa [ofFirst_length, List.take_length] at hrun

end RuleIndex

/-! ### Registries -/

/-- The roles can be filled: the rule that brings premises into a derivation has no premises and a
    single atom as conclusion, and the one that opens sub-proofs, if any is named, is there. -/
structure HasRoles (rules : List Rule) (roles : Roles) : Prop where
  assertion : ∃ r ∈ rules, r.isCalled roles.assertion = true ∧ ∃ symbol, r.Asserts symbol
  subproof : ∀ key, roles.subproof = some key → Named rules key

namespace Registry

variable {registry : Registry} {key : String} {r : Rule}

/-- The index leads from every name of a rule to its place. -/
def Indexed (registry : Registry) : Prop :=
  RuleIndex.Lists registry.rules registry.rules.length registry.index

namespace Indexed

theorem find?_eq_some_iff (h : registry.Indexed) :
    registry.find? key = some r ↔ r ∈ registry.rules ∧ r.isCalled key = true := by
  unfold find?
  rw [Option.map_eq_some_iff]
  constructor
  · intro hfound
    obtain ⟨i, hi, rfl⟩ := hfound
    exact ⟨List.get_mem _ i, ((h key i).mp hi).2⟩
  · intro hr
    obtain ⟨hmem, hcalled⟩ := hr
    obtain ⟨i, rfl⟩ := List.get_of_mem hmem
    exact ⟨i, (h key i).mpr ⟨i.isLt, hcalled⟩, rfl⟩

theorem hasRule_iff (h : registry.Indexed) :
    registry.hasRule key = true ↔ Named registry.rules key := by
  rw [hasRule, Option.isSome_iff_exists, ← h.named_iff, List.take_length]

/-- The index finds the rule that a search through the list finds. -/
theorem find?_eq (h : registry.Indexed) (key : String) :
    registry.find? key = Calculus.find? registry.rules key := by
  cases hfound : Calculus.find? registry.rules key with
  | some r => exact h.find?_eq_some_iff.mpr (Calculus.mem_of_find? hfound)
  | none =>
    rw [← Option.not_isSome_iff_eq_none, Calculus.find?_isSome_iff] at hfound
    rw [Option.eq_none_iff_forall_ne_some]
    intro r hr
    exact hfound ⟨r, h.find?_eq_some_iff.mp hr⟩

/-- A name leads to one place only. -/
theorem place_unique (h : registry.Indexed) {i j : Fin registry.rules.length}
    (hi : (registry.rules.get i).isCalled key = true)
    (hj : (registry.rules.get j).isCalled key = true) : i = j := by
  have hplace : registry.index.place? key = some i := (h key i).mpr ⟨i.isLt, hi⟩
  rw [(h key j).mpr ⟨j.isLt, hj⟩] at hplace
  exact (Option.some.inj hplace).symm

theorem checkRoles_eq_ok_iff (h : registry.Indexed) {registry' : Registry} :
    registry.checkRoles = .ok registry' ↔
      registry = registry' ∧ HasRoles registry.rules registry.roles := by
  unfold checkRoles
  rw [Except.bind_eq_ok]
  simp only [Calculus.checkAssertion_eq_ok_iff, h.find?_eq_some_iff]
  constructor
  · intro hok
    obtain ⟨r, ⟨⟨hmem, hcalled⟩, hasserts⟩, hok⟩ := hok
    have hassertion : ∃ r ∈ registry.rules, r.isCalled registry.roles.assertion = true ∧
        ∃ symbol, r.Asserts symbol := ⟨r, hmem, hcalled, hasserts⟩
    split at hok
    · next key hkey =>
      split at hok
      · next hhas =>
        refine ⟨Except.ok.inj hok, hassertion, ?_⟩
        intro key' hkey'
        obtain rfl : key = key' := Option.some.inj (hkey.symm.trans hkey')
        exact h.hasRule_iff.mp hhas
      · cases hok
    · next hnone =>
      refine ⟨Except.ok.inj hok, hassertion, ?_⟩
      intro key hkey
      rw [hnone] at hkey
      cases hkey
  · intro hroles
    obtain ⟨rfl, ⟨r, hmem, hcalled, hasserts⟩, hsubproof⟩ := hroles
    refine ⟨r, ⟨⟨hmem, hcalled⟩, hasserts⟩, ?_⟩
    split
    · next key hkey =>
      rw [if_pos (h.hasRule_iff.mpr (hsubproof key hkey))]
      rfl
    · rfl

/-- The rules with a role are those that a search through the list finds. -/
theorem checkRoles_eq (h : registry.Indexed) : registry.checkRoles = (do
    let assertion ← Calculus.findAssertion registry.rules registry.roles.assertion
    let _ ← Calculus.findSubproof registry.rules assertion registry.roles.subproof
    return registry) := by
  unfold checkRoles Calculus.findAssertion
  rw [h.find?_eq]
  refine Except.bind_congr fun assertion _ => ?_
  cases registry.roles.subproof with
  | none => rfl
  | some key =>
    have hhas : registry.hasRule key = (Calculus.find? registry.rules key).isSome := by
      rw [← h.find?_eq, find?, Option.isSome_map, hasRule]
    simp only [hhas, Calculus.findSubproof]
    cases Calculus.find? registry.rules key with
    | none => rfl
    | some r => rfl

theorem rule_eq_ok (h : registry.Indexed) (hfound : Calculus.find? registry.rules key = some r) :
    registry.rule key = .ok r := by
  rw [rule, h.find?_eq, hfound]

theorem calculus_eq_ok (h : registry.Indexed) {assertion subproof : Rule}
    (hassertion : Calculus.findAssertion registry.rules registry.roles.assertion = .ok assertion)
    (hsubproof : Calculus.findSubproof registry.rules assertion registry.roles.subproof =
      .ok subproof) :
    registry.calculus =
      .ok ⟨registry.rules, registry.roles, registry.equivalence, assertion, subproof⟩ := by
  have hfirst : registry.assertionRule = .ok assertion :=
    h.rule_eq_ok (Calculus.find?_of_findAssertion hassertion)
  have hsecond : registry.subproofRule = .ok subproof := by
    unfold subproofRule
    unfold Calculus.findSubproof at hsubproof
    split at hsubproof
    · next hrole =>
      rw [hrole, ← hsubproof]
      exact hfirst
    · next key hrole =>
      rw [hrole]
      split at hsubproof
      · next r hfound =>
        rw [← hsubproof]
        exact h.rule_eq_ok hfound
      · cases hsubproof
  rw [calculus, hfirst, hsecond]
  rfl

end Indexed

variable {roles : Roles} {equivalence : Option Operator} {config : Config}

/-- A registry that is made is indexed. -/
theorem indexed_of_ofRules {index : RuleIndex rules.length}
    (h : RuleIndex.ofRules limit rules = .ok index) :
    Indexed ⟨rules, index, roles, equivalence⟩ := by
  obtain ⟨index', hindex, _, hlists⟩ | ⟨e, herror, _⟩ := RuleIndex.ofRules_cases limit rules
  · rw [hindex] at h
    rw [← Except.ok.inj h]
    exact hlists
  · rw [herror] at h
    cases h

/-- The calculus of a registry is the one that is made of its rules without an index. -/
theorem ofRules_calculus : (ofRules rules roles equivalence config >>= calculus) =
    Calculus.ofRules rules roles equivalence config := by
  unfold ofRules Calculus.ofRules
  obtain ⟨index, hindex, hcheck, _⟩ | ⟨e, herror, hcheck⟩ :=
    RuleIndex.ofRules_cases config.premiseLimit rules
  · have hindexed : Indexed ⟨rules, index, roles, equivalence⟩ := indexed_of_ofRules hindex
    rw [hindex, hcheck]
    change (checkRoles _ >>= calculus) = _
    rw [hindexed.checkRoles_eq]
    simp only [bind_assoc, pure_bind]
    refine Except.bind_congr fun assertion hassertion => ?_
    refine Except.bind_congr fun subproof hsubproof => ?_
    exact hindexed.calculus_eq_ok hassertion hsubproof
  · rw [herror, hcheck]
    rfl

theorem ofRules_eq_ok_iff : ofRules rules roles equivalence config = .ok registry ↔
    ∃ index, RuleIndex.ofRules config.premiseLimit rules = .ok index ∧
      ⟨rules, index, roles, equivalence⟩ = registry ∧ HasRoles rules roles := by
  unfold ofRules
  rw [Except.bind_eq_ok]
  refine exists_congr fun index => and_congr_right fun hindex => ?_
  have hindexed : Indexed ⟨rules, index, roles, equivalence⟩ := indexed_of_ofRules hindex
  exact hindexed.checkRoles_eq_ok_iff

/-- Rules are refused for their first fault, whatever their roles. -/
theorem ofRules_of_firstFault (h : FirstFault config.premiseLimit rules e) :
    ofRules rules roles equivalence config = .error e := by
  rw [← Calculus.checkRules_eq_error_iff] at h
  obtain ⟨index, _, hcheck, _⟩ | ⟨e', herror, hcheck⟩ :=
    RuleIndex.ofRules_cases config.premiseLimit rules
  · rw [hcheck] at h
    cases h
  · rw [hcheck] at h
    rw [ofRules, herror, Except.error.inj h]
    rfl

theorem exists_ofRules_iff : (∃ registry, ofRules rules roles equivalence config = .ok registry) ↔
    Faultless config.premiseLimit rules ∧ HasRoles rules roles := by
  simp only [ofRules_eq_ok_iff, ← Calculus.checkRules_eq_ok_iff]
  constructor
  · intro h
    obtain ⟨_, index, hindex, _, hroles⟩ := h
    obtain ⟨_, _, hcheck, _⟩ | ⟨e, herror, _⟩ := RuleIndex.ofRules_cases config.premiseLimit rules
    · exact ⟨hcheck, hroles⟩
    · rw [herror] at hindex
      cases hindex
  · intro h
    obtain ⟨hcheck, hroles⟩ := h
    obtain ⟨index, hindex, _⟩ | ⟨e, _, herror⟩ := RuleIndex.ofRules_cases config.premiseLimit rules
    · exact ⟨_, index, hindex, rfl, hroles⟩
    · rw [herror] at hcheck
      cases hcheck

theorem rule_eq_ok_iff : registry.rule key = .ok r ↔ registry.find? key = some r := by
  unfold rule
  cases registry.find? key with
  | none => simp
  | some r' => simp

theorem rule_eq_error_iff {e : CalculusError} :
    registry.rule key = .error e ↔ registry.find? key = none ∧ .unknownRule key = e := by
  unfold rule
  cases registry.find? key with
  | none => simp
  | some r' => simp

/-- **Exactly the valid lists of rules are accepted, and look-up is unambiguous.** A registry is
    made if and only if no rule has too many premises, no two rules have a name or an abbreviation
    in common, and the roles can be filled. If the rules themselves are at fault, the error is that
    of the first rule with a fault. In a registry a string finds the rule that has it as name or
    abbreviation, which is at one place only, and any other string finds none. Sessions get the
    calculus that is made of the same rules without an index. -/
theorem ofRules_exact (rules : List Rule) (roles : Roles) (equivalence : Option Operator)
    (config : Config) :
    ((∃ registry, ofRules rules roles equivalence config = .ok registry) ↔
      Faultless config.premiseLimit rules ∧ HasRoles rules roles) ∧
    (¬ Faultless config.premiseLimit rules ↔ ∃ e, FirstFault config.premiseLimit rules e) ∧
    (∀ e, FirstFault config.premiseLimit rules e →
      ofRules rules roles equivalence config = .error e) ∧
    ∀ registry, ofRules rules roles equivalence config = .ok registry →
      registry.rules = rules ∧ registry.roles = roles ∧ registry.equivalence = equivalence ∧
      registry.calculus = Calculus.ofRules rules roles equivalence config ∧
      ∀ key,
        (∀ r, registry.rule key = .ok r ↔ r ∈ rules ∧ (r.name = key ∨ r.abbreviation = key)) ∧
        (∀ i j : Fin rules.length, (rules.get i).isCalled key = true →
          (rules.get j).isCalled key = true → i = j) ∧
        (∀ e, registry.rule key = .error e ↔
          (∀ r ∈ rules, r.name ≠ key ∧ r.abbreviation ≠ key) ∧ .unknownRule key = e) ∧
        (registry.hasRule key = true ↔ ∃ r ∈ rules, r.name = key ∨ r.abbreviation = key) := by
  refine ⟨exists_ofRules_iff, ?_, fun e => ofRules_of_firstFault, ?_⟩
  · simp only [← Calculus.checkRules_eq_ok_iff, ← Calculus.checkRules_eq_error_iff]
    cases Calculus.checkRules config.premiseLimit [] rules with
    | error e => simp
    | ok u => simp
  · intro registry h
    have hcalculus : registry.calculus = Calculus.ofRules rules roles equivalence config := by
      rw [← ofRules_calculus, h]
      rfl
    obtain ⟨index, hindex, rfl, _⟩ := ofRules_eq_ok_iff.mp h
    have hindexed : Indexed ⟨rules, index, roles, equivalence⟩ := indexed_of_ofRules hindex
    refine ⟨rfl, rfl, rfl, hcalculus, ?_⟩
    intro key
    refine ⟨?_, ?_, ?_, ?_⟩
    · intro r
      rw [rule_eq_ok_iff, hindexed.find?_eq_some_iff, Rule.isCalled_iff]
    · intro i j hi hj
      exact hindexed.place_unique hi hj
    · intro e
      simp only [rule_eq_error_iff, Option.eq_none_iff_forall_ne_some, ne_eq,
        hindexed.find?_eq_some_iff, Rule.isCalled_iff, not_and, not_or]
    · simp only [hindexed.hasRule_iff, Named, Rule.isCalled_iff]

/-- The second rule is abbreviated by its own name. The third one has this abbreviation again, and
    nine premises. -/
def sampleRules : List Rule :=
  [ ⟨"Given", "G", ⟨[], [.schema "P"]⟩, none⟩,
    ⟨"MP", "MP", ⟨[.formula (.schema "P"), .formula (.schema "Q")], [.schema "Q"]⟩, none⟩,
    ⟨"Nine", "MP", ⟨List.replicate 9 (.formula (.schema "P")), [.schema "P"]⟩, none⟩ ]

theorem ofRules_exact_sampleRules :
    (∃ registry, ofRules (sampleRules.take 2) { assertion := "G" } none {} = .ok registry ∧
      ∀ r, registry.rule "MP" = .ok r ↔
        r ∈ sampleRules.take 2 ∧ (r.name = "MP" ∨ r.abbreviation = "MP")) ∧
    ofRules sampleRules { assertion := "G" } none {} = .error (.tooManyPremises "Nine" 9 8) ∧
    ofRules sampleRules { assertion := "H" } none { premiseLimit := 9 } =
      .error (.duplicateRule "MP") := by
  have hfaultless : Faultless 8 (sampleRules.take 2) := Calculus.checkRules_eq_ok_iff.mp rfl
  have hroles : HasRoles (sampleRules.take 2) { assertion := "G" } :=
    ⟨⟨_, List.mem_cons_self, rfl, _, rfl, rfl⟩, fun key hkey => by cases hkey⟩
  refine ⟨?_, ?_, ?_⟩
  · have hexact := ofRules_exact (sampleRules.take 2) { assertion := "G" } none {}
    obtain ⟨registry, hregistry⟩ := hexact.1.mpr ⟨hfaultless, hroles⟩
    exact ⟨registry, hregistry, ((hexact.2.2.2 registry hregistry).2.2.2.2 "MP").1⟩
  · exact (ofRules_exact sampleRules { assertion := "G" } none {}).2.2.1 _
      (Calculus.checkRules_eq_error_iff.mp rfl)
  · exact (ofRules_exact sampleRules { assertion := "H" } none { premiseLimit := 9 }).2.2.1 _
      (Calculus.checkRules_eq_error_iff.mp rfl)

end Registry

end NaturalDeduction
