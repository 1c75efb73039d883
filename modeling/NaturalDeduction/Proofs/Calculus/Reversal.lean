import NaturalDeduction.Proofs.Calculus.Replacement
import NaturalDeduction.Proofs.Truth.Table

/-! # Rules of replacement, forwards and backwards

    A rule of replacement is tried from left to right first. So an instance of
    the left side always becomes the instance of the right side. An instance of
    the right side becomes that of the left side if it is not by accident an
    instance of the left side too: then it is taken forwards once more.

    How the two sides can overlap is read off the templates:

    * **Apart**: sides with different principal operators have no instance in
      common, and the rule works backwards without exception.
    * **Exchange**: a side that is the other one with its operands exchanged
      gives the same result in both directions.
    * **Uneven**: if at one place one side is larger than the other in all
      instances, then going forwards twice does not lead back. So the rule works
      backwards on exactly those instances that do not overlap.

    Every rule of replacement of the built-in logics is of one of these kinds.
-/

namespace NaturalDeduction

/-! ### Instances of one template -/

namespace Substitution

variable {σ τ : Substitution}

/-- All of the names are bound to concrete formulas. -/
def Grounds (σ : Substitution) (names : List String) : Prop :=
  ∀ x ∈ names, ∃ f, σ.get? x = some f ∧ f.isConcrete = true

theorem Grounds.isConcrete_apply {t : Formula} (h : σ.Grounds t.vars) :
    (σ.apply t).isConcrete = true := by
  rw [Formula.isConcrete_iff, List.eq_nil_iff_forall_not_mem]
  intro x hx
  obtain ⟨y, hy, hxy⟩ := (mem_vars_apply t).mp hx
  obtain ⟨f, hf, hconcrete⟩ := h y hy
  rw [apply_schema, hf, Option.getD_some, (Formula.isConcrete_iff f).mp hconcrete] at hxy
  cases hxy

mutual
/-- Two instances of a template are equal exactly if its variables stand for the same. -/
theorem apply_eq_apply_iff : (t : Formula) →
    (σ.apply t = τ.apply t ↔ ∀ x ∈ t.vars, σ.apply (.schema x) = τ.apply (.schema x))
  | .atom ⟨name, .schema⟩ => by
    simp only [Formula.vars, if_true, List.mem_singleton, forall_eq]
    exact Iff.rfl
  | .atom ⟨name, .proposition⟩ => by
    simp [apply, Formula.vars]
  | .app op ts => by
    rw [apply, apply, Formula.vars, Formula.app.injEq]
    simp only [true_and]
    exact applyAll_eq_applyAll_iff ts

/-- The same for the templates of a list. -/
theorem applyAll_eq_applyAll_iff : (ts : List Formula) →
    (σ.applyAll ts = τ.applyAll ts ↔
      ∀ x ∈ Formula.varsAll ts, σ.apply (.schema x) = τ.apply (.schema x))
  | [] => by simp [applyAll, Formula.varsAll]
  | t :: ts => by
    have hfirst := apply_eq_apply_iff t
    have hrest := applyAll_eq_applyAll_iff ts
    rw [applyAll, applyAll, Formula.varsAll, List.cons.injEq, hfirst, hrest]
    simp only [List.mem_append, or_imp, forall_and]
end

/-- A part of a template becomes a part of the instance. -/
theorem at?_apply {t u : Formula} {p : Path} (h : t.at? p = some u) :
    (σ.apply t).at? p = some (σ.apply u) := by
  induction p generalizing t with
  | nil =>
    rw [Formula.at?_nil, Option.some.injEq] at h
    rw [Formula.at?_nil, h]
  | cons i p ih =>
    obtain ⟨op, before, operand, after, rfl, rfl, hbelow⟩ := Formula.at?_cons_eq_some h
    rw [apply, applyAll_eq, Formula.at?_cons]
    simp [Formula.operands, ih hbelow]

end Substitution

/-! ### Templates that are larger in all instances -/

namespace Formula

variable {σ τ : Substitution}

theorem sizeAll_perm {fs gs : List Formula} (h : fs.Perm gs) : sizeAll fs = sizeAll gs := by
  induction h with
  | nil => rfl
  | cons f _ ih => rw [sizeAll, sizeAll, ih]
  | swap f g fs =>
    simp only [sizeAll]
    omega
  | trans _ _ ih ih' => rw [ih, ih']

theorem length_le_sizeAll (fs : List Formula) : fs.length ≤ sizeAll fs := by
  induction fs with
  | nil => exact Nat.zero_le _
  | cons f fs ih =>
    have hpos := f.size_pos
    rw [List.length_cons, sizeAll]
    omega

mutual
/-- An instance has the nodes of the template, with what stands for a variable in the place of each
    occurrence. -/
theorem size_apply : (t : Formula) → (σ.apply t).size + t.vars.length =
    t.size + sizeAll (t.vars.map fun x => σ.apply (.schema x))
  | .atom ⟨name, .schema⟩ => by
    have hself : σ.apply (.atom ⟨name, .schema⟩) = σ.apply (.schema name) := rfl
    simp only [vars, if_true, List.length_singleton, size, List.map_singleton, sizeAll, hself]
    omega
  | .atom ⟨name, .proposition⟩ => by
    simp [Substitution.apply, vars, size, sizeAll]
  | .app op ts => by
    have hall := size_applyAll ts
    rw [Substitution.apply, size, size, vars]
    omega

/-- The same for the templates of a list. -/
theorem size_applyAll : (ts : List Formula) → sizeAll (σ.applyAll ts) + (varsAll ts).length =
    sizeAll ts + sizeAll ((varsAll ts).map fun x => σ.apply (.schema x))
  | [] => by simp [Substitution.applyAll, varsAll, sizeAll]
  | t :: ts => by
    have hfirst := size_apply t
    have hrest := size_applyAll ts
    rw [Substitution.applyAll, sizeAll, sizeAll, varsAll, List.length_append, List.map_append,
      sizeAll_append]
    omega
end

/-- Has `u` more nodes than `t`, and each variable at least as often? -/
def isOutgrownBy (t u : Formula) : Bool :=
  decide (t.size < u.size) && (t.vars ++ u.vars.diff t.vars).isPerm u.vars

theorem size_apply_lt {t u : Formula} (h : t.isOutgrownBy u = true) :
    (σ.apply t).size < (σ.apply u).size := by
  unfold isOutgrownBy at h
  rw [Bool.and_eq_true, decide_eq_true_eq, List.isPerm_iff] at h
  obtain ⟨hsize, hperm⟩ := h
  have ht := size_apply (σ := σ) t
  have hu := size_apply (σ := σ) u
  have hsum := sizeAll_perm (hperm.map fun x => σ.apply (.schema x))
  have hlength := hperm.length_eq
  -- the variables that `u` has besides stand for at least one node each
  have hrest := length_le_sizeAll ((u.vars.diff t.vars).map fun x => σ.apply (.schema x))
  rw [List.map_append, sizeAll_append] at hsum
  rw [List.length_append] at hlength
  rw [List.length_map] at hrest
  omega

/-- What grows, grows again. -/
theorem apply_ne_of_isOutgrownBy {t u : Formula} (h : t.isOutgrownBy u = true)
    (hτ : τ.apply t = σ.apply u) : τ.apply u ≠ σ.apply t := by
  intro hback
  have hfirst := size_apply_lt (σ := σ) h
  have hagain := size_apply_lt (σ := τ) h
  rw [hτ, hback] at hagain
  omega

/-! ### Overlaps of the two sides -/

variable {left right : Formula}

/-- Do the sides have different principal operators? -/
def isApart (left right : Formula) : Bool :=
  match left.operator?, right.operator? with
  | some op, some op' => op != op'
  | _, _ => false

/-- Is one side the other one with its two operands exchanged, both of them atoms? -/
def isExchange (left right : Formula) : Bool :=
  match left, right with
  | .app op [.atom s, .atom s'], .app op' [.atom t, .atom t'] => op == op' && s == t' && s' == t
  | _, _ => false

/-- Is one side larger than the other in all instances, as a whole or in the first operand? -/
def isUneven (left right : Formula) : Bool :=
  [[], [0]].any fun p =>
    match left.at? p, right.at? p with
    | some l, some r => l.isOutgrownBy r || r.isOutgrownBy l
    | _, _ => false

theorem not_instanceOf_of_isApart (h : left.isApart right = true) :
    ¬ (σ.apply right).InstanceOf left := by
  rintro ⟨τ, hτ⟩
  cases left with
  | atom s => cases h
  | app op ts =>
    cases right with
    | atom s => simp [isApart, operator?] at h
    | app op' us =>
      rw [Substitution.apply, Substitution.apply, app.injEq] at hτ
      simp [isApart, operator?, hτ.1] at h

/-- Exchanging the operands once more leads back. -/
theorem apply_eq_of_isExchange (h : left.isExchange right = true)
    (hτ : τ.apply left = σ.apply right) : τ.apply right = σ.apply left := by
  unfold isExchange at h
  split at h
  · next op s s' op' t t' =>
    simp only [Bool.and_eq_true, beq_iff_eq] at h
    obtain ⟨⟨rfl, rfl⟩, rfl⟩ := h
    simp only [Substitution.apply, Substitution.applyAll, app.injEq, List.cons.injEq, true_and,
      and_true] at hτ ⊢
    exact ⟨hτ.2, hτ.1⟩
  · cases h

theorem apply_ne_of_isUneven (h : left.isUneven right = true)
    (hτ : τ.apply left = σ.apply right) : τ.apply right ≠ σ.apply left := by
  obtain ⟨p, -, hp⟩ := List.any_eq_true.mp h
  split at hp
  · next l r hl hr =>
    intro hback
    -- at the path, the instances of both sides are the same in both ways
    have hthere : τ.apply l = σ.apply r := by
      have hat := Substitution.at?_apply (σ := τ) hl
      rw [hτ, Substitution.at?_apply hr, Option.some.injEq] at hat
      exact hat.symm
    have hagain : τ.apply r = σ.apply l := by
      have hat := Substitution.at?_apply (σ := τ) hr
      rw [hback, Substitution.at?_apply hl, Option.some.injEq] at hat
      exact hat.symm
    rcases Bool.or_eq_true _ _ |>.mp hp with hgrows | hshrinks
    · exact apply_ne_of_isOutgrownBy hgrows hthere hagain
    · exact apply_ne_of_isOutgrownBy hshrinks hagain hthere
  · cases hp

end Formula

/-! ### Replacing a whole premise -/

namespace Calculus

variable {c : Calculus} {key : String} {rule : Rule} {left right f : Formula}

section WholePremise

variable (hrule : c.rule key = .ok rule) (hsides : c.sides? rule = some (left, right))
  (hvars : ∀ x, x ∈ left.vars ↔ x ∈ right.vars) (hf : f.isConcrete = true)

include hrule hsides hvars hf

/-- Where both sides have the same variables, the side that is not matched becomes the instance that
    any substitution for the other one gives. -/
theorem replace_whole (hinstance : f.InstanceOf left ∨ f.InstanceOf right) :
    ∃ replacement direction, c.replace key [.formula f] [] = .ok replacement ∧
      (direction = Direction.leftToRight ↔ f.InstanceOf left) ∧
      ∀ τ : Substitution, τ.apply (direction.sides left right).1 = f →
        replacement.formula = τ.apply (direction.sides left right).2 := by
  rcases replace_cases hrule hsides hf (Formula.at?_nil f) with
    ⟨hleft, hright, -⟩ | ⟨ρ, direction, symbols, hdirection, hρ, hlacking, houtcome⟩
  · exact absurd hinstance (by tauto)
  · have hsame : ∀ x, x ∈ (direction.sides left right).1.vars ↔
        x ∈ (direction.sides left right).2.vars := by
      cases direction with
      | leftToRight => exact hvars
      | rightToLeft => exact fun x => (hvars x).symm
    -- no variable of the other side is missing
    have hnil : symbols = [] := by
      rw [List.eq_nil_iff_forall_not_mem]
      intro x hx
      obtain ⟨hother, hchosen⟩ := (hlacking.mem_iff x).mp hx
      exact hchosen ((hsame x).mpr hother)
    obtain ⟨hne, -⟩ | ⟨-, inContext, hreplace, -, -⟩ := houtcome
    · exact absurd hnil hne
    · refine ⟨_, direction, hreplace, hdirection, ?_⟩
      intro τ hτ
      show ρ.apply (direction.sides left right).2 = τ.apply (direction.sides left right).2
      -- both agree on the variables of the side matched, and the other side has no more
      have hagree := (Substitution.apply_eq_apply_iff _).mp (hρ.apply_eq.trans hτ.symm)
      rw [Substitution.apply_eq_apply_iff]
      intro x hx
      exact hagree x ((hsame x).mpr hx)

theorem replace_left {τ : Substitution} (hτ : τ.apply left = f) :
    ∃ replacement, c.replace key [.formula f] [] = .ok replacement ∧
      replacement.formula = τ.apply right := by
  have hleft : f.InstanceOf left := ⟨τ, hτ⟩
  obtain ⟨replacement, direction, hreplace, hdirection, hformula⟩ :=
    replace_whole hrule hsides hvars hf (.inl hleft)
  rw [hdirection.mpr hleft] at hformula
  exact ⟨replacement, hreplace, hformula τ hτ⟩

theorem replace_right {σ : Substitution} (hσ : σ.apply right = f)
    (hleft : ¬ f.InstanceOf left) :
    ∃ replacement, c.replace key [.formula f] [] = .ok replacement ∧
      replacement.formula = σ.apply left := by
  obtain ⟨replacement, direction, hreplace, hdirection, hformula⟩ :=
    replace_whole hrule hsides hvars hf (.inr ⟨σ, hσ⟩)
  cases direction with
  | leftToRight => exact absurd (hdirection.mp rfl) hleft
  | rightToLeft => exact ⟨replacement, hreplace, hformula σ hσ⟩

end WholePremise

end Calculus

/-! ### The built-in rules of replacement -/

namespace Logic

/-- The rules of replacement that exchange two operands. -/
def exchangeRules : List String := ["Comm(&)", "Comm(v)"]

/-- The rules of replacement whose sides have no instance in common. -/
def apartRules : List String :=
  ["DM(&)", "DM(v)", "Dist(&)", "Dist(v)", "Impl", "Equiv(&)", "Equiv(>)", "DM"]

end Logic

/-- Is the way in which the two sides overlap known from the rule's abbreviation? -/
def Rule.isSorted (r : Rule) (left right : Formula) : Bool :=
  left.vars.all right.vars.contains && right.vars.all left.vars.contains &&
    if Logic.exchangeRules.contains r.abbreviation then left.isExchange right
    else if Logic.apartRules.contains r.abbreviation then left.isApart right
    else left.isUneven right

namespace Logic

/-- Is the way in which the sides overlap known for each rule of replacement? -/
def isSorted (logic : Logic) : Bool :=
  logic.calculus.rules.all fun r =>
    (logic.calculus.sides? r).all fun (left, right) => r.isSorted left right

/-- Is there a rule of replacement with an abbreviation and two sides? -/
def hasSides (logic : Logic) (abbreviation : String) (left right : Formula) : Bool :=
  logic.calculus.rules.any fun r =>
    r.abbreviation == abbreviation && logic.calculus.sides? r == some (left, right)

/-- The conditional of two formulas. -/
def sampleConditional (f g : Formula) : Formula := .app ⟨"Conditional", .infixed⟩ [f, g]

/-- The negation of the negation of a formula. -/
def sampleDoubled (f : Formula) : Formula :=
  .app ⟨"Negation", .prefixed⟩ [.app ⟨"Negation", .prefixed⟩ [f]]

/-- The left side of exportation. -/
def sampleImported : Formula :=
  sampleConditional (Calculus.sampleConjunction (.schema "P") (.schema "Q")) (.schema "R")

/-- The right side of exportation. -/
def sampleExported : Formula :=
  sampleConditional (.schema "P") (sampleConditional (.schema "Q") (.schema "R"))

/-- The Gentzen logic is sorted, and has exportation and double negation among its rules. -/
theorem exists_sorted_gentzen : ∃ logic, gentzen {} = .ok logic ∧ logic.isSorted = true ∧
    logic.hasSides "Exp" sampleImported sampleExported = true ∧
    logic.hasSides "DN" (.schema "P") (sampleDoubled (.schema "P")) = true := by
  have hrun : (gentzen {}).toOption.any (fun logic => logic.isSorted &&
      (logic.hasSides "Exp" sampleImported sampleExported &&
        logic.hasSides "DN" (.schema "P") (sampleDoubled (.schema "P")))) = true := by
    decide +kernel
  obtain ⟨logic, hlogic, hchecks⟩ := Except.exists_ok_of_any hrun
  rw [Bool.and_eq_true, Bool.and_eq_true] at hchecks
  exact ⟨logic, hlogic, hchecks⟩

theorem exists_sorted_fitch : ∃ logic, fitch {} = .ok logic ∧ logic.isSorted = true := by
  have hrun : (fitch {}).toOption.any isSorted = true := by decide +kernel
  exact Except.exists_ok_of_any hrun

/-- The configuration has no influence on which rules a table gives. -/
theorem rules_of_ofTable {language : Language} {table : List RuleEntry} {roles : Roles}
    {config : Config} {logic : Logic} (h : ofTable language table roles config = .ok logic) :
    readRules language table = .ok logic.calculus.rules ∧
      logic.calculus.equivalence = language.equivalence := by
  unfold ofTable at h
  obtain ⟨rules, hread, h⟩ := Except.bind_eq_ok.mp h
  obtain ⟨c, hof, h⟩ := Except.bind_eq_ok.mp h
  rw [Except.mapError_eq_ok] at hread hof
  cases h
  obtain ⟨-, hrules, -, -, hequivalence⟩ := Calculus.ofRules_eq_ok hof
  exact ⟨hrules ▸ hread, hequivalence⟩

theorem isSorted_of_ofTable {language : Language} {table : List RuleEntry} {roles : Roles}
    {config config' : Config} {logic logic' : Logic}
    (h : ofTable language table roles config = .ok logic) (hsorted : logic.isSorted = true)
    (h' : ofTable language table roles config' = .ok logic') : logic'.isSorted = true := by
  obtain ⟨hread, hequivalence⟩ := rules_of_ofTable h
  obtain ⟨hread', hequivalence'⟩ := rules_of_ofTable h'
  have hrules : logic'.calculus.rules = logic.calculus.rules :=
    Except.ok.inj (hread'.symm.trans hread)
  unfold isSorted Calculus.sides? at hsorted ⊢
  rw [hrules, hequivalence', ← hequivalence]
  exact hsorted

theorem rule_isSorted {logic : Logic} (h : logic.isSorted = true) {rule : Rule}
    {left right : Formula} (hmem : rule ∈ logic.calculus.rules)
    (hsides : logic.calculus.sides? rule = some (left, right)) :
    rule.isSorted left right = true := by
  have hrule := List.all_eq_true.mp h rule hmem
  rw [hsides] at hrule
  exact hrule

theorem isSorted_of_builtIn {config : Config} {logic : Logic}
    (h : gentzen config = .ok logic ∨ fitch config = .ok logic) : logic.isSorted = true := by
  rcases h with hgentzen | hfitch
  · obtain ⟨sorted, hlogic, hsorted, -⟩ := exists_sorted_gentzen
    exact isSorted_of_ofTable hlogic hsorted hgentzen
  · obtain ⟨sorted, hlogic, hsorted⟩ := exists_sorted_fitch
    exact isSorted_of_ofTable hlogic hsorted hfitch

end Logic

section Sorted

variable {rule : Rule} {left right : Formula} {σ τ : Substitution}
  (hsorted : rule.isSorted left right = true)

include hsorted

theorem Rule.mem_vars_iff_of_isSorted (x : String) : x ∈ left.vars ↔ x ∈ right.vars := by
  simp only [Rule.isSorted, Bool.and_eq_true, List.all_eq_true, List.contains_iff_mem] at hsorted
  exact ⟨hsorted.1.1 x, hsorted.1.2 x⟩

theorem Rule.not_instanceOf_of_isSorted (happart : rule.abbreviation ∈ Logic.apartRules) :
    ¬ (σ.apply right).InstanceOf left := by
  have hnot : rule.abbreviation ∉ Logic.exchangeRules := by
    have hdisjoint : (Logic.apartRules.all fun a => !Logic.exchangeRules.contains a) = true := by
      decide
    simpa using List.all_eq_true.mp hdisjoint _ happart
  simp only [Rule.isSorted, Bool.and_eq_true, List.contains_iff_mem, hnot, happart, if_true,
    if_false] at hsorted
  exact Formula.not_instanceOf_of_isApart hsorted.2

/-- An instance of both sides leads back, when it is taken forwards, only by an exchange. -/
theorem Rule.apply_eq_iff_of_isSorted (hτ : τ.apply left = σ.apply right) :
    τ.apply right = σ.apply left ↔ rule.abbreviation ∈ Logic.exchangeRules := by
  by_cases hexchange : rule.abbreviation ∈ Logic.exchangeRules
  · simp only [Rule.isSorted, Bool.and_eq_true, List.contains_iff_mem, hexchange, if_true]
      at hsorted
    exact iff_of_true (Formula.apply_eq_of_isExchange hsorted.2 hτ) hexchange
  · by_cases happart : rule.abbreviation ∈ Logic.apartRules
    · exact absurd ⟨τ, hτ⟩ (Rule.not_instanceOf_of_isSorted hsorted happart)
    · simp only [Rule.isSorted, Bool.and_eq_true, List.contains_iff_mem, hexchange, happart,
        if_false] at hsorted
      exact iff_of_false (Formula.apply_ne_of_isUneven hsorted.2 hτ) hexchange

end Sorted

namespace Logic

/-- **Forwards always, backwards where it is not forwards.** For every rule of replacement of a
    built-in logic, with sides `left` and `right`, and every substitution that binds its variables
    to concrete formulas: the instance of the left side is replaced by the instance of the right
    side. The instance of the right side is replaced by that of the left side exactly if it is not
    an instance of the left side, too, or the rule exchanges two operands; and if it is one, by a
    substitution `τ`, then it is replaced by what `τ` makes of the right side. The rules of
    `apartRules` work in both directions without exception. -/
theorem replace_both_ways {config : Config} {logic : Logic}
    (hlogic : gentzen config = .ok logic ∨ fitch config = .ok logic) {rule : Rule}
    (hmem : rule ∈ logic.calculus.rules) {key : String}
    (hcalled : rule.name = key ∨ rule.abbreviation = key) {left right : Formula}
    (hsides : logic.calculus.sides? rule = some (left, right)) {σ : Substitution}
    (hσ : σ.Grounds (left.vars ++ right.vars)) :
    (∃ replacement, logic.calculus.replace key [.formula (σ.apply left)] [] = .ok replacement ∧
      replacement.formula = σ.apply right) ∧
    (∃ replacement, logic.calculus.replace key [.formula (σ.apply right)] [] = .ok replacement ∧
      (replacement.formula = σ.apply left ↔
        rule.abbreviation ∈ exchangeRules ∨ ¬ (σ.apply right).InstanceOf left) ∧
      ∀ τ : Substitution, τ.apply left = σ.apply right →
        replacement.formula = τ.apply right) ∧
    (rule.abbreviation ∈ apartRules → ¬ (σ.apply right).InstanceOf left) := by
  have hbuiltIn : BuiltIn config logic := hlogic.imp_right .inr
  have hrule := hbuiltIn.truthful.accepted.rule_eq_ok hmem (Rule.isCalled_iff.mpr hcalled)
  have hsorted := rule_isSorted (isSorted_of_builtIn hlogic) hmem hsides
  have hvars := Rule.mem_vars_iff_of_isSorted hsorted
  have hleft : (σ.apply left).isConcrete = true :=
    Substitution.Grounds.isConcrete_apply fun x hx => hσ x (List.mem_append_left _ hx)
  have hright : (σ.apply right).isConcrete = true :=
    Substitution.Grounds.isConcrete_apply fun x hx => hσ x (List.mem_append_right _ hx)
  refine ⟨Calculus.replace_left hrule hsides hvars hleft rfl, ?_,
    Rule.not_instanceOf_of_isSorted hsorted⟩
  by_cases hboth : (σ.apply right).InstanceOf left
  · -- the left side matches, and the instance is taken forwards
    obtain ⟨τ, hτ⟩ := hboth
    obtain ⟨replacement, hreplace, hformula⟩ :=
      Calculus.replace_left hrule hsides hvars hright hτ
    refine ⟨replacement, hreplace, ?_, ?_⟩
    · rw [hformula, Rule.apply_eq_iff_of_isSorted hsorted hτ]
      exact ⟨.inl, fun h => h.resolve_right fun hnot => hnot ⟨τ, hτ⟩⟩
    · intro τ' hτ'
      rw [hformula, Substitution.apply_eq_apply_iff]
      have hagree := (Substitution.apply_eq_apply_iff left).mp (hτ.trans hτ'.symm)
      exact fun x hx => hagree x ((hvars x).mpr hx)
  · obtain ⟨replacement, hreplace, hformula⟩ :=
      Calculus.replace_right hrule hsides hvars hright rfl hboth
    exact ⟨replacement, hreplace, iff_of_true hformula (.inr hboth),
      fun τ hτ => absurd ⟨τ, hτ⟩ hboth⟩

theorem exists_rule_of_hasSides {logic : Logic} {abbreviation : String} {left right : Formula}
    (h : logic.hasSides abbreviation left right = true) :
    ∃ rule ∈ logic.calculus.rules, rule.abbreviation = abbreviation ∧
      logic.calculus.sides? rule = some (left, right) := by
  obtain ⟨rule, hmem, hrule⟩ := List.any_eq_true.mp h
  rw [Bool.and_eq_true, beq_iff_eq, beq_iff_eq] at hrule
  exact ⟨rule, hmem, hrule⟩

/-- A substitution for the variables of exportation. -/
def sampleTerms : Substitution :=
  .ofList [("P", .proposition "A"), ("Q", .proposition "B"), ("R", .proposition "C")]

/-- Exportation works in both directions where the first part is no conjunction. -/
theorem replace_both_ways_exportation :
    ∃ logic rule, gentzen {} = .ok logic ∧ rule ∈ logic.calculus.rules ∧
      rule.abbreviation = "Exp" ∧
      logic.calculus.sides? rule = some (sampleImported, sampleExported) ∧
      (∃ replacement, logic.calculus.replace "Exp"
          [.formula (sampleTerms.apply sampleImported)] [] = .ok replacement ∧
        replacement.formula = sampleTerms.apply sampleExported) ∧
      ∃ replacement, logic.calculus.replace "Exp"
          [.formula (sampleTerms.apply sampleExported)] [] = .ok replacement ∧
        replacement.formula = sampleTerms.apply sampleImported := by
  obtain ⟨logic, hlogic, -, hexportation, -⟩ := exists_sorted_gentzen
  obtain ⟨rule, hmem, habbreviation, hsides⟩ := exists_rule_of_hasSides hexportation
  have hgrounds : sampleTerms.Grounds (sampleImported.vars ++ sampleExported.vars) := by
    intro x hx
    have hname : x ∈ ["P", "Q", "R", "P", "Q", "R"] := hx
    simp only [List.mem_cons, List.not_mem_nil, or_false] at hname
    rcases hname with rfl | rfl | rfl | rfl | rfl | rfl <;> exact ⟨_, rfl, rfl⟩
  have hapart : ¬ (sampleTerms.apply sampleExported).InstanceOf sampleImported := by
    rw [Formula.instanceOf_iff]
    decide
  obtain ⟨hforwards, ⟨replacement, hreplace, hbackwards, -⟩, -⟩ :=
    replace_both_ways (.inl hlogic) hmem (.inr habbreviation) hsides hgrounds
  exact ⟨logic, rule, hlogic, hmem, habbreviation, hsides, hforwards, replacement, hreplace,
    hbackwards.mpr (.inr hapart)⟩

/-- A double negation is not taken back, but doubled: it is an instance of the left side, which is a
    single variable. -/
theorem doubleNegation_not_taken_back :
    ∃ logic rule replacement, gentzen {} = .ok logic ∧ rule ∈ logic.calculus.rules ∧
      rule.abbreviation = "DN" ∧
      logic.calculus.sides? rule = some (.schema "P", sampleDoubled (.schema "P")) ∧
      sampleTerms.Grounds ((Formula.schema "P").vars ++ (sampleDoubled (.schema "P")).vars) ∧
      logic.calculus.replace "DN" [.formula (sampleTerms.apply (sampleDoubled (.schema "P")))] [] =
        .ok replacement ∧
      replacement.formula = sampleDoubled (sampleDoubled (.proposition "A")) ∧
      replacement.formula ≠ sampleTerms.apply (.schema "P") := by
  obtain ⟨logic, hlogic, -, -, hnegation⟩ := exists_sorted_gentzen
  obtain ⟨rule, hmem, habbreviation, hsides⟩ := exists_rule_of_hasSides hnegation
  have hrule : logic.calculus.rule "DN" = .ok rule :=
    (BuiltIn.truthful (.inl hlogic)).accepted.rule_eq_ok hmem
      (Rule.isCalled_iff.mpr (.inr habbreviation))
  have hgrounds : sampleTerms.Grounds
      ((Formula.schema "P").vars ++ (sampleDoubled (.schema "P")).vars) := by
    intro x hx
    have hname : x ∈ ["P", "P"] := hx
    simp only [List.mem_cons, List.not_mem_nil, or_false, or_self] at hname
    rw [hname]
    exact ⟨_, rfl, rfl⟩
  have hvars : ∀ x, x ∈ (Formula.schema "P").vars ↔ x ∈ (sampleDoubled (.schema "P")).vars :=
    fun x => Iff.rfl
  -- the variable stands for the whole double negation
  let τ : Substitution := .ofList [("P", sampleDoubled (.proposition "A"))]
  have hτ : τ.apply (.schema "P") = sampleTerms.apply (sampleDoubled (.schema "P")) := rfl
  obtain ⟨replacement, hreplace, hformula⟩ := Calculus.replace_left hrule hsides hvars rfl hτ
  refine ⟨logic, rule, replacement, hlogic, hmem, habbreviation, hsides, hgrounds, hreplace,
    hformula, ?_⟩
  rw [hformula]
  decide

end Logic

end NaturalDeduction
