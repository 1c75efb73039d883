import Mathlib.Data.List.Sublists
import NaturalDeduction.Logic.Fitch
import NaturalDeduction.Logic.Gensler
import NaturalDeduction.Logic.Gentzen
import NaturalDeduction.Proofs.Calculus
import NaturalDeduction.Proofs.Truth.Valuation

/-! # Truth tables

    Whether a template is valid can be computed if it is built from schema
    variables by the connectives: it is enough to look at all choices of the
    variables that are true. Tables of rules are checked in this way
    (`Logic.isSoundTable`). A rule of such a table is valid, or it has one of
    the roles and states a formula without premises. For rules with a role
    nothing more can be asked: that the formula may be stated is up to those
    who use the rule.

    All built-in logics pass the check (`Logic.BuiltIn.truthful`).
-/

namespace NaturalDeduction

/-! ### Truth of templates -/

mutual
/-- The truth of a template that is built from schema variables by the connectives. -/
def Formula.truth? (ρ : String → Bool) : Formula → Option Bool
  | .atom s => if s.kind = .schema then some (ρ s.name) else none
  | .app op fs =>
    match Formula.truthAll? ρ fs with
    | some bs => op.classical? bs
    | none => none

/-- The truth of the templates of a list. -/
def Formula.truthAll? (ρ : String → Bool) : List Formula → Option (List Bool)
  | [] => some []
  | f :: fs =>
    match Formula.truth? ρ f, Formula.truthAll? ρ fs with
    | some b, some bs => some (b :: bs)
    | _, _ => none
end

mutual
/-- Does a form hold that is built from schema variables by the connectives? -/
def Form.truth? (ρ : String → Bool) : Form → Option Bool
  | .formula f => f.truth? ρ
  | .sequent ps cs =>
    match Form.truthAll? ρ ps, Formula.truthAll? ρ cs with
    | some bs, some bs' => some (!bs.all id || bs'.all id)
    | _, _ => none

/-- Which forms of a list hold? -/
def Form.truthAll? (ρ : String → Bool) : List Form → Option (List Bool)
  | [] => some []
  | p :: ps =>
    match Form.truth? ρ p, Form.truthAll? ρ ps with
    | some b, some bs => some (b :: bs)
    | _, _ => none
end

namespace Valuation

/-- The valuation and the choice agree on some schema variables. -/
def Agrees (V : Valuation) (ρ : String → Bool) (names : List String) : Prop :=
  ∀ x ∈ names, V.atom ⟨x, .schema⟩ = ρ x

variable {V : Valuation} {ρ : String → Bool} {names names' : List String}

theorem Agrees.left (h : V.Agrees ρ (names ++ names')) : V.Agrees ρ names :=
  fun x hx => h x (List.mem_append_left _ hx)

theorem Agrees.right (h : V.Agrees ρ (names ++ names')) : V.Agrees ρ names' :=
  fun x hx => h x (List.mem_append_right _ hx)

mutual
/-- A valuation makes of a template what was computed for the choice that it agrees with. -/
theorem eval_of_truth? : (t : Formula) → {b : Bool} → V.Agrees ρ t.vars →
    t.truth? ρ = some b → V.eval t = b
  | .atom ⟨name, kind⟩, b => by
    intro hagree h
    unfold Formula.truth? at h
    split at h
    · next hkind =>
      obtain rfl : kind = .schema := hkind
      rw [Option.some.injEq] at h
      rw [← h]
      exact hagree name (by simp [Formula.vars])
    · cases h
  | .app op ts, b => by
    intro hagree h
    unfold Formula.truth? at h
    split at h
    · next bs hbs =>
      rw [eval, evalAll_of_truthAll? ts hagree hbs]
      exact V.operator_eq op bs b h
    · cases h

/-- The same for the templates of a list. -/
theorem evalAll_of_truthAll? : (ts : List Formula) → {bs : List Bool} →
    V.Agrees ρ (Formula.varsAll ts) → Formula.truthAll? ρ ts = some bs → V.evalAll ts = bs
  | [], bs => by
    intro _ h
    rw [Formula.truthAll?, Option.some.injEq] at h
    rw [← h, evalAll]
  | t :: ts, bs => by
    intro hagree h
    unfold Formula.truthAll? at h
    split at h
    · next b' bs' hb hbs =>
      rw [Option.some.injEq] at h
      rw [evalAll, eval_of_truth? t hagree.left hb, evalAll_of_truthAll? ts hagree.right hbs, h]
    · cases h
end

mutual
/-- A form holds under a valuation if that was computed for the choice that it agrees with. -/
theorem holds_iff_of_truth? : (p : Form) → {b : Bool} → V.Agrees ρ p.vars →
    p.truth? ρ = some b → (V.Holds p ↔ b = true)
  | .formula f, b => by
    intro hagree h
    rw [Holds, eval_of_truth? f hagree h]
  | .sequent ps cs, b => by
    intro hagree h
    unfold Form.truth? at h
    split at h
    · next bs bs' hbs hbs' =>
      have hpremises := holdAll_iff_of_truthAll? ps hagree.left hbs
      have hconclusions : (∀ c ∈ cs, V.eval c = true) ↔ bs'.all id = true := by
        rw [← evalAll_of_truthAll? cs hagree.right hbs', evalAll_eq]
        simp
      rw [Option.some.injEq] at h
      rw [Holds, hpremises, hconclusions, ← h]
      cases bs.all id <;> simp
    · cases h

/-- The same for the forms of a list. -/
theorem holdAll_iff_of_truthAll? : (ps : List Form) → {bs : List Bool} →
    V.Agrees ρ (Form.varsAll ps) → Form.truthAll? ρ ps = some bs →
      (V.HoldAll ps ↔ bs.all id = true)
  | [], bs => by
    intro _ h
    rw [Form.truthAll?, Option.some.injEq] at h
    simp [HoldAll, ← h]
  | p :: ps, bs => by
    intro hagree h
    unfold Form.truthAll? at h
    split at h
    · next b' bs' hb hbs =>
      rw [Option.some.injEq] at h
      rw [HoldAll, holds_iff_of_truth? p hagree.left hb,
        holdAll_iff_of_truthAll? ps hagree.right hbs, ← h]
      simp
    · cases h
end

end Valuation

/-- Does the sequent hold whichever of its schema variables are true? -/
def Sequent.isTautology (s : Sequent) : Bool :=
  (Names.ofList s.toForm.vars).sublists.all fun trues =>
    s.toForm.truth? trues.contains == some true

theorem Sequent.valid_of_isTautology {s : Sequent} (h : s.isTautology = true) : s.Valid := by
  intro V
  -- the line of the table for the variables that are true under `V`
  have hmem : (Names.ofList s.toForm.vars).filter (fun x => V.atom ⟨x, .schema⟩) ∈
      (Names.ofList s.toForm.vars).sublists :=
    List.mem_sublists.mpr List.filter_sublist
  have hline := List.all_eq_true.mp h _ hmem
  rw [beq_iff_eq] at hline
  refine (Valuation.holds_iff_of_truth? s.toForm ?_ hline).mpr rfl
  intro x hx
  rw [Bool.eq_iff_iff, List.contains_iff_mem, List.mem_filter, Names.mem_ofList]
  exact ⟨fun htrue => ⟨hx, htrue⟩, fun hfilter => hfilter.2⟩

/-! ### Tables of rules -/

/-- Does the sequent state a schema variable without premises? -/
def Sequent.isStatement (s : Sequent) : Bool :=
  match s.premises, s.conclusions with
  | [], [.atom symbol] => symbol.kind == .schema
  | _, _ => false

theorem Sequent.isStatement_iff {s : Sequent} :
    s.isStatement = true ↔ s.premises = [] ∧ ∃ x, s.conclusions = [.schema x] := by
  unfold isStatement
  constructor
  · intro h
    split at h
    · next symbol hpremises hconclusions =>
      obtain ⟨name, kind⟩ := symbol
      obtain rfl : kind = .schema := eq_of_beq h
      exact ⟨hpremises, name, hconclusions⟩
    · cases h
  · intro h
    obtain ⟨hpremises, x, hconclusions⟩ := h
    rw [hpremises, hconclusions]
    rfl

/-- Is the rule valid, or does it state a formula and have a role? -/
def Rule.isSound (roles : Roles) (r : Rule) : Bool :=
  r.sequent.isTautology ||
    ((r.isCalled roles.assertion || roles.subproof.any r.isCalled) && r.sequent.isStatement)

/-- Is each rule of the table valid, or does it state a formula and have a role? -/
def Logic.isSoundTable (language : Language) (table : List RuleEntry) (roles : Roles) : Bool :=
  match readRules language table with
  | .error _ => false
  | .ok rules => rules.all (·.isSound roles)

/-- A calculus whose rules are valid, but for those by which formulas are stated. -/
structure Calculus.Truthful (c : Calculus) : Prop where
  accepted : c.Accepted
  equivalence_eq : c.equivalence = some ⟨"Biconditional", .infixed⟩
  valid_or_statement : ∀ r ∈ c.rules, r.sequent.Valid ∨
    (r = c.assertionRule ∨ r = c.subproofRule) ∧ r.sequent.isStatement = true

/-- A logic given by a table that passes the check is truthful. -/
theorem Logic.truthful_of_isSoundTable {language : Language} {table : List RuleEntry}
    {roles : Roles} {config : Config} {logic : Logic}
    (htable : isSoundTable language table roles = true)
    (hlanguage : language.equivalence = some ⟨"Biconditional", .infixed⟩)
    (h : ofTable language table roles config = .ok logic) : logic.calculus.Truthful := by
  unfold ofTable at h
  obtain ⟨rules, hread, h⟩ := Except.bind_eq_ok.mp h
  obtain ⟨c, hof, h⟩ := Except.bind_eq_ok.mp h
  rw [Except.mapError_eq_ok] at hread hof
  cases h
  obtain ⟨hcheck, hrules, hassertion, hsubproof, hequivalence⟩ := Calculus.ofRules_eq_ok hof
  refine ⟨⟨_, _, _, _, hof⟩, hequivalence.trans hlanguage, ?_⟩
  intro r hr
  rw [show (Logic.mk language c).calculus = c from rfl] at hr ⊢
  rw [hrules] at hr
  rw [isSoundTable, hread] at htable
  have hsound : r.isSound roles = true := List.all_eq_true.mp htable r hr
  unfold Rule.isSound at hsound
  rw [Bool.or_eq_true, Bool.and_eq_true, Bool.or_eq_true] at hsound
  rcases hsound with htautology | ⟨hrole, hstatement⟩
  · exact .inl (Sequent.valid_of_isTautology htautology)
  · refine .inr ⟨?_, hstatement⟩
    -- names are not shared, so that a rule called like the one with a role is that rule
    rcases hrole with hcalled | hcalled
    · left
      have hfound := (Calculus.find?_of_checkRules hcheck hr hcalled).2
      rw [Calculus.find?_of_findAssertion hassertion] at hfound
      exact (Option.some.inj hfound).symm
    · right
      cases hrole : roles.subproof with
      | none =>
        rw [hrole] at hcalled
        cases hcalled
      | some key =>
        rw [hrole] at hcalled hsubproof
        have hfound := (Calculus.find?_of_checkRules hcheck hr hcalled).2
        rw [Calculus.findSubproof, hfound] at hsubproof
        exact Except.ok.inj hsubproof

/-! ### The built-in logics -/

namespace Logic

theorem isSoundTable_gentzen : isSoundTable .horseshoe gentzenRules gentzenRoles = true := by
  decide +kernel

theorem isSoundTable_gensler : isSoundTable .horseshoe genslerRules genslerRoles = true := by
  decide +kernel

theorem isSoundTable_fitch : isSoundTable .arrow fitchRules fitchRoles = true := by
  decide +kernel

/-- One of the logics that come with the library. -/
def BuiltIn (config : Config) (logic : Logic) : Prop :=
  gentzen config = .ok logic ∨ gensler config = .ok logic ∨ fitch config = .ok logic

theorem BuiltIn.truthful {config : Config} {logic : Logic} (h : BuiltIn config logic) :
    logic.calculus.Truthful := by
  rcases h with hgentzen | hgensler | hfitch
  · exact truthful_of_isSoundTable isSoundTable_gentzen rfl hgentzen
  · exact truthful_of_isSoundTable isSoundTable_gensler rfl hgensler
  · exact truthful_of_isSoundTable isSoundTable_fitch rfl hfitch

end Logic

end NaturalDeduction
