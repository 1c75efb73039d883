import NaturalDeduction.Proofs.Derivation.Visibility
import NaturalDeduction.Proofs.Session.Growth
import NaturalDeduction.Proofs.Truth.Table

/-! # Sessions derive only what follows

    In a session of a built-in logic, the premises of the goal entail every
    step outside all sub-proofs. Hence they entail the conclusions of the goal
    once the session is complete.

    Steps inside sub-proofs depend on more. The first step of a scope counts as
    the hypothesis of the scope, whether it was stated as an assumption or not.
    The invariant is about all open scopes: what a scope lists is right if the
    hypotheses of this scope and of those around it are true, where the
    outermost scope has no hypothesis (`Scope.Secured`). A step is right if its
    formula is true, a sub-proof if its last step is true in case its first one
    is. Each change of a derivation keeps the invariant:

    * a new step is obtained from citations in open scopes, which are right if
      all hypotheses are true, or else it is the hypothesis of its scope;
    * a scope that is opened lists nothing yet;
    * a scope that is closed ends with a step, which is true if the hypothesis
      is. This is the sub-proof that it leaves behind.
-/

namespace NaturalDeduction

/-! ### Scopes and their hypotheses -/

/-- The citation is right, where `T` tells the numbers of true steps. -/
def Citation.Right (T : Nat → Prop) : Citation → Prop
  | .step n => T n
  | .subproof a b => T a → T b

namespace Scope

/-- The first step that the scope covers is true, if there is one. -/
def Granted (T : Nat → Prop) (scope : Scope) : Prop := ∀ c, scope.head? = some c → T c.first

/-- All scopes but the outermost one have true hypotheses. -/
def AllGranted (T : Nat → Prop) (scopes : List Scope) : Prop :=
  ∀ scope ∈ scopes.dropLast, Granted T scope

/-- What a scope lists is right if its hypothesis and those around it are true, for all scopes of a
    stack, innermost first. -/
def Secured (T : Nat → Prop) : List Scope → Prop
  | [] => True
  | scope :: outer =>
    Secured T outer ∧ (AllGranted T (scope :: outer) → ∀ c ∈ scope, c.Right T)

variable {T : Nat → Prop} {scope enclosing added : Scope} {outer scopes : List Scope}

theorem Granted.of_append (h : Granted T (scope ++ added)) : Granted T scope := by
  intro c hc
  apply h
  cases scope with
  | nil => cases hc
  | cons b bs => exact hc

theorem AllGranted.cons (hscope : outer ≠ [] → Granted T scope) (h : AllGranted T outer) :
    AllGranted T (scope :: outer) := by
  cases outer with
  | nil =>
    intro s hs
    cases hs
  | cons enclosing outer =>
    intro s hs
    rw [List.dropLast_cons_cons, List.mem_cons] at hs
    rcases hs with rfl | hmem
    · exact hscope (List.cons_ne_nil _ _)
    · exact h s hmem

theorem AllGranted.head (h : AllGranted T (scope :: outer)) (hne : outer ≠ []) :
    Granted T scope := by
  apply h
  rw [List.dropLast_cons_of_ne_nil hne]
  exact List.mem_cons_self

theorem AllGranted.tail (h : AllGranted T (scope :: outer)) : AllGranted T outer := by
  cases outer with
  | nil =>
    intro s hs
    cases hs
  | cons enclosing outer =>
    intro s hs
    apply h
    rw [List.dropLast_cons_cons]
    exact List.mem_cons_of_mem scope hs

/-- Hypotheses stay when a scope lists more. -/
theorem AllGranted.of_append (h : AllGranted T ((scope ++ added) :: outer)) :
    AllGranted T (scope :: outer) :=
  .cons (fun hne => (h.head hne).of_append) h.tail

/-- If all hypotheses are true, everything listed is right. -/
theorem Secured.right (h : Secured T scopes) (hgranted : AllGranted T scopes) {c : Citation}
    (hscope : scope ∈ scopes) (hc : c ∈ scope) : c.Right T := by
  induction scopes with
  | nil => cases hscope
  | cons first outer ih =>
    rcases List.mem_cons.mp hscope with rfl | hmem
    · exact h.2 hgranted c hc
    · exact ih h.1 hgranted.tail hmem

/-- What the outermost scope lists is right without any hypothesis. -/
theorem Secured.right_outermost (h : Secured T scopes) {outermost : Scope}
    (hlast : scopes.getLast? = some outermost) {c : Citation} (hc : c ∈ outermost) :
    c.Right T := by
  induction scopes with
  | nil => cases hlast
  | cons first outer ih =>
    by_cases hne : outer = []
    · subst hne
      obtain rfl : first = outermost := by simpa using hlast
      have hnone : AllGranted T [first] := by
        intro s hs
        cases hs
      exact h.2 hnone c hc
    · rw [List.getLast?_cons_of_ne_nil hne] at hlast
      exact ih h.1 hlast

/-- A scope may list more of what is right if the hypotheses are true. -/
theorem Secured.append (h : Secured T (scope :: outer))
    (hadded : AllGranted T ((scope ++ added) :: outer) → ∀ c ∈ added, c.Right T) :
    Secured T ((scope ++ added) :: outer) := by
  refine ⟨h.1, ?_⟩
  intro hgranted c hc
  rcases List.mem_append.mp hc with hmem | hmem
  · exact h.2 hgranted.of_append c hmem
  · exact hadded hgranted c hmem

theorem Secured.push (h : Secured T scopes) : Secured T ([] :: scopes) := by
  refine ⟨h, ?_⟩
  intro _ c hc
  cases hc

/-- A scope that ends with a step may be closed. -/
theorem Secured.close {lo hi : Nat} (h : Secured T (scope :: enclosing :: outer))
    (htiles : Tiles lo scope hi) (hlast : ∀ c, scope.getLast? = some c → c = .step hi) :
    Secured T ((enclosing ++ scope.summary) :: outer) := by
  refine h.1.append ?_
  intro hgranted c hc
  obtain ⟨hne, rfl⟩ := htiles.mem_summary.mp hc
  -- granted its first step, the scope lists only what is right, and so is its last step
  intro hfirst
  have hhypothesis : Granted T scope := by
    intro c hc
    cases scope with
    | nil => cases hc
    | cons b bs =>
      obtain rfl : b = c := by simpa using hc
      rw [htiles.1]
      exact hfirst
  have hall : AllGranted T (scope :: enclosing :: outer) :=
    .cons (fun _ => hhypothesis) hgranted.of_append
  have hend := hlast _ (List.getLast?_eq_some_getLast hne)
  have hright := h.2 hall _ (List.getLast_mem hne)
  rw [hend] at hright
  exact hright

end Scope

/-! ### Truth of steps -/

namespace Derivation

variable {d : Derivation} {V : Valuation} {T : Nat → Prop}

/-- `T` tells which steps are true. -/
def Marks (d : Derivation) (V : Valuation) (T : Nat → Prop) : Prop :=
  ∀ k step, d.step? k = some step → (T k ↔ V.eval step.formula = true)

theorem Denotes.holds {c : Citation} {form : Form} (h : d.Denotes c form) (hT : d.Marks V T)
    (hright : c.Right T) : V.Holds form := by
  cases h with
  | @step n s hs =>
    show V.eval s.formula = true
    exact (hT n s hs).mp hright
  | @subproof a b s t hs ht =>
    intro hpremise c hc
    have ha : T a := (hT a s hs).mpr hpremise.1
    have hb : T b := hright ha
    rw [List.mem_singleton.mp hc]
    exact (hT b t ht).mp hb

/-- If all hypotheses are true, then what is cited holds. -/
theorem holds_of_premises {citations : List Citation} {premises : List Form}
    (h : d.premises citations = .ok premises) (hT : d.Marks V T)
    (hsecured : Scope.Secured T (d.scopes.current :: d.scopes.outer))
    (hgranted : Scope.AllGranted T (d.scopes.current :: d.scopes.outer)) :
    ∀ form ∈ premises, V.Holds form := by
  obtain ⟨hvisible, hforms⟩ := premises_eq_ok_iff.mp h
  clear h
  induction hforms with
  | nil =>
    intro form hform
    cases hform
  | @cons c form _ _ hden _ ih =>
    obtain ⟨scope, hscope, hc⟩ := exists_scope_of_isVisible (hvisible c List.mem_cons_self)
    have hfirst : V.Holds form := hden.holds hT (hsecured.right hgranted hscope hc)
    rw [List.forall_mem_cons]
    exact ⟨hfirst, ih fun c' hc' => hvisible c' (List.mem_cons_of_mem c hc')⟩

/-- A step outside all sub-proofs is listed by the outermost scope. -/
theorem Nested.mem_outermost {scopes : List Scope} {hi k : Nat} (h : d.Nested scopes hi)
    (hpos : 1 ≤ k) (hle : k ≤ hi) (hlevel : d.levelAt k = some 0) :
    ∃ outermost, scopes.getLast? = some outermost ∧ .step k ∈ outermost := by
  induction h with
  | nil => omega
  | @cons scope outer lo hi houter htiles hfits ih =>
    by_cases hk : k ≤ lo
    · obtain ⟨outermost, hlast, hmem⟩ := ih hk
      refine ⟨outermost, ?_, hmem⟩
      have hne : outer ≠ [] := by
        intro hnil
        rw [hnil] at hlast
        cases hlast
      rw [List.getLast?_cons_of_ne_nil hne, hlast]
    · -- the entry of this scope that covers the step is the step, as sub-proofs are deeper
      obtain ⟨c, hc, hfirst, hend⟩ := htiles.exists_mem (by omega) hle
      have hfit := hfits c hc
      cases c with
      | step n =>
        obtain rfl : k = n := Nat.le_antisymm hend hfirst
        have hdepth : some 0 = some outer.length := hlevel.symm.trans hfit
        have hnil : outer = [] := List.length_eq_zero_iff.mp (Option.some.inj hdepth).symm
        subst hnil
        exact ⟨scope, rfl, hc⟩
      | subproof a b =>
        obtain ⟨l, hl, hlt⟩ := hfit.1 k hfirst hend
        rw [hlevel, Option.some.injEq] at hl
        omega

end Derivation

/-! ### Truth of what is inferred -/

/-- What a valid rule infers from premises that hold is true. -/
theorem Calculus.eval_of_infer {c : Calculus} {key : String} {rule : Rule} {premises : List Form}
    {extra : Substitution} {inference : Inference} {conclusion : Formula} {V : Valuation}
    (hvalid : rule.sequent.Valid) (hrule : c.rule key = .ok rule)
    (hinfer : c.infer key premises extra = .ok inference)
    (hpremises : ∀ form ∈ premises, V.Holds form) (hmem : conclusion ∈ inference.conclusions) :
    V.eval conclusion = true := by
  obtain ⟨_, hperm, hlist⟩ := infer_eq_ok hrule hinfer
  rw [hlist] at hmem
  obtain ⟨template, htemplate, rfl⟩ := List.mem_map.mp hmem
  refine hvalid.eval_apply ?_ htemplate
  intro p hp
  exact hpremises _ (hperm.mem_iff.mpr (List.mem_map_of_mem hp))

namespace Calculus.Truthful

variable {c : Calculus} {key : String} {rule : Rule} {premises : List Form} {V : Valuation}

/-- A rule that is called neither like the rule for premises nor like the one for sub-proofs is
    valid. -/
theorem valid (hc : c.Truthful) (hrule : c.rule key = .ok rule)
    (hassertion : ¬ c.assertionRule.isCalled key = true)
    (hsubproof : ¬ c.subproofRule.isCalled key = true) : rule.sequent.Valid := by
  obtain ⟨hmem, hcalled⟩ := mem_of_find? (rule_eq_ok_iff.mp hrule)
  rcases hc.valid_or_statement rule hmem with hvalid | ⟨hrole, _⟩
  · exact hvalid
  · rcases hrole with rfl | rfl
    · exact absurd hcalled hassertion
    · exact absurd hcalled hsubproof

/-- A rule of replacement is valid. -/
theorem valid_of_sides? {left right : Formula} (hc : c.Truthful) (hrule : c.rule key = .ok rule)
    (hsides : c.sides? rule = some (left, right)) : rule.sequent.Valid := by
  obtain ⟨hmem, _⟩ := mem_of_find? (rule_eq_ok_iff.mp hrule)
  rcases hc.valid_or_statement rule hmem with hvalid | ⟨_, hstatement⟩
  · exact hvalid
  · -- a statement has an atom for its conclusion, not two sides
    obtain ⟨hnil, x, hatom⟩ := Sequent.isStatement_iff.mp hstatement
    unfold Calculus.sides? Sequent.sides? at hsides
    rw [hnil, hatom] at hsides
    cases hsides

theorem eval_of_replace {path : Path} {replacement : Replacement} (hc : c.Truthful)
    (hrule : c.rule key = .ok rule) (hreplace : c.replace key premises path = .ok replacement)
    (hpremises : ∀ form ∈ premises, V.Holds form) : V.eval replacement.inContext = true := by
  obtain ⟨left, right, premise, selected, other, hsides, rfl, hat, hmatch, hformula, hcontext⟩ :=
    replace_eq_ok hrule hreplace
  have hvalid := hc.valid_of_sides? hrule hsides
  have hpremise : V.eval premise = true := hpremises _ (List.mem_singleton_self _)
  have hequal : V.eval (replacement.bindings.apply left) =
      V.eval (replacement.bindings.apply right) := by
    unfold Calculus.sides? at hsides
    rw [hc.equivalence_eq] at hsides
    exact hvalid.eval_sides (fun _ _ => rfl) hsides
  have hsame : V.eval replacement.formula = V.eval selected := by
    rw [hformula]
    rcases hmatch with ⟨rfl, rfl⟩ | ⟨rfl, rfl⟩
    · exact hequal.symm
    · exact hequal
  rw [Valuation.eval_replaceAt? hat hsame hcontext, hpremise]

/-- The rule for premises states nothing but what it was asked to state, or what is valid. -/
theorem eval_of_stated {f : Formula} {step : Step} (hc : c.Truthful)
    (h : Stated c c.assertionRule f step) (hf : V.eval f = true) : V.eval step.formula = true := by
  obtain ⟨symbol, inference, conclusion, rest, hatom, hinfer, hlist, rfl⟩ := h
  have hmem := hc.accepted.assertionRule_mem
  have hcalled : c.assertionRule.isCalled c.assertionRule.name = true := by simp [Rule.isCalled]
  have hrule := hc.accepted.rule_eq_ok hmem hcalled
  show V.eval conclusion = true
  rcases hc.valid_or_statement _ hmem with hvalid | ⟨_, hstatement⟩
  · refine eval_of_infer hvalid hrule hinfer ?_ (hlist ▸ List.mem_cons_self)
    intro form hform
    cases hform
  · -- the conclusion is a schema variable, which is bound to the formula
    obtain ⟨hextends, _, hconclusions⟩ := infer_eq_ok hrule hinfer
    have hkind : symbol.kind = .schema := by
      obtain ⟨_, x, hschema⟩ := Sequent.isStatement_iff.mp hstatement
      rw [hatom] at hschema
      cases hschema
      rfl
    have hget : inference.bindings.get? symbol.name = some f := by
      refine hextends symbol.name f ?_
      rw [Substitution.get?_insert, if_pos rfl]
    have hconclusion : conclusion = inference.bindings.apply (.atom symbol) := by
      rw [hlist, hatom, List.map_singleton] at hconclusions
      exact (List.cons.inj hconclusions).1
    rw [hconclusion, Substitution.apply, if_pos hkind, hget, Option.getD_some]
    exact hf

end Calculus.Truthful

/-! ### Whole sessions -/

/-- The key calls neither the rule for premises nor the one for sub-proofs. -/
def Calculus.Unreserved (c : Calculus) (key : String) : Prop :=
  ¬ c.assertionRule.isCalled key = true ∧ ¬ c.subproofRule.isCalled key = true

section

variable {logic : Logic} {config : Config} {goal : Sequent} {V : Valuation} {T : Nat → Prop}
  {d : Derivation} {step : Step}

/-- A step that a session adds is true, granted the hypotheses of all open scopes after it was
    added. -/
theorem Introduced.true_of_allGranted (hlogic : logic.calculus.Truthful)
    (hconfig : config.replaceInContext = true) (hgoal : ∀ form ∈ goal.premises, V.Holds form)
    (h : Introduced logic config logic.calculus.Unreserved (some goal) d step)
    (hT : d.Marks V T) (hnew : T (d.steps.length + 1) ↔ V.eval step.formula = true)
    (hsecured : Scope.Secured T (d.scopes.current :: d.scopes.outer))
    (hgranted : Scope.AllGranted T
      ((d.scopes.current ++ [.step (d.steps.length + 1)]) :: d.scopes.outer)) :
    T (d.steps.length + 1) := by
  cases h with
  | premise hsome hmem _ hstated =>
    cases hsome
    exact hnew.mpr (hlogic.eval_of_stated hstated (hgoal _ hmem))
  | assumption hempty houter _ =>
    -- the step is the hypothesis of its scope
    rw [hempty] at hgranted
    exact hgranted.head houter _ rfl
  | inferred hkey hrule hpremises hinfer hconclusion =>
    have hvalid := hlogic.valid hrule hkey.1 hkey.2
    have hhold := Derivation.holds_of_premises hpremises hT hsecured hgranted.of_append
    exact hnew.mpr (Calculus.eval_of_infer hvalid hrule hinfer hhold
      (List.mem_of_getElem? hconclusion))
  | replaced hrule hpremises hreplace =>
    have hhold := Derivation.holds_of_premises hpremises hT hsecured hgranted.of_append
    rw [hnew]
    show V.eval (if config.replaceInContext = true then _ else _) = true
    rw [if_pos hconfig]
    exact hlogic.eval_of_replace hrule hreplace hhold

/-- What the open scopes of a session list is right if their hypotheses are true. -/
theorem Derivation.Grown.secured {past : List Derivation} (hlogic : logic.calculus.Truthful)
    (hconfig : config.replaceInContext = true) (hgoal : ∀ form ∈ goal.premises, V.Holds form)
    (h : Grown (Introduced logic config logic.calculus.Unreserved (some goal)) d past)
    (hT : d.Marks V T) : Scope.Secured T (d.scopes.current :: d.scopes.outer) := by
  induction h with
  | empty limit =>
    have hnone : Scope.Secured T [] := trivial
    exact hnone.push
  | @addStep d d' _ added _ _ hintro hadd ih =>
    obtain ⟨_, _, _, rfl⟩ := addStep_eq_ok_iff.mp hadd
    have hold : d.Marks V T := fun k s hk => hT k s (step?_extend_of_some hk)
    have hnew : T (d.steps.length + 1) ↔ V.eval added.formula = true :=
      hT _ { added with level := d.depth } step?_extend_self
    show Scope.Secured T
      ((d.scopes.current ++ [.step (d.steps.length + 1)]) :: d.scopes.outer)
    refine (ih hold).append ?_
    intro hgranted c hc
    rw [List.mem_singleton.mp hc]
    exact hintro.true_of_allGranted hlogic hconfig hgoal hold hnew (ih hold) hgranted
  | openScope _ hopen ih =>
    obtain ⟨_, _, rfl⟩ := openScope_eq_ok_iff.mp hopen
    exact (ih hT).push
  | @closeScope d _ _ hgrown hclose ih =>
    obtain ⟨enclosing, outer, houter, hnear, rfl⟩ := closeScope_eq_ok_iff.mp hclose
    have hnested := hgrown.wellNested
    have hsecured := ih hT
    rw [houter] at hsecured
    obtain ⟨lo, htiles⟩ := hnested.tiles_current
    exact hsecured.close htiles fun c hc => hnested.getLast?_current hnear hc

/-- Steps outside all sub-proofs are true if the premises of the goal hold. -/
theorem Derivation.Grown.eval_of_level_zero {past : List Derivation}
    (hlogic : logic.calculus.Truthful) (hconfig : config.replaceInContext = true)
    (hgoal : ∀ form ∈ goal.premises, V.Holds form)
    (h : Grown (Introduced logic config logic.calculus.Unreserved (some goal)) d past) :
    ∀ step ∈ d.steps, step.level = 0 → V.eval step.formula = true := by
  intro step hmem hzero
  obtain ⟨k, hk⟩ := List.mem_iff_getElem?.mp hmem
  have hstep : d.step? (k + 1) = some step := hk
  -- mark the true steps as such
  have hT : d.Marks V fun n => ∃ s, d.step? n = some s ∧ V.eval s.formula = true := by
    intro n s hs
    constructor
    · intro hmarked
      obtain ⟨s', hs', htrue⟩ := hmarked
      rw [hs, Option.some.injEq] at hs'
      rw [hs']
      exact htrue
    · intro htrue
      exact ⟨s, hs, htrue⟩
  have hlevel : d.levelAt (k + 1) = some 0 := by
    rw [levelAt, hstep, Option.map_some, hzero]
  obtain ⟨hpos, hle⟩ := step?_bounds hstep
  obtain ⟨outermost, hlast, hlisted⟩ := h.wellNested.mem_outermost hpos hle hlevel
  have hright := (h.secured hlogic hconfig hgoal hT).right_outermost hlast hlisted
  exact (hT (k + 1) step hstep).mp hright

end

/-- **Soundness.** In every session of a built-in logic that replaces in context and never infers by
    the rule for premises or the one for sub-proofs, whatever else is done or taken back and whatever
    the host answers: a valuation under which the premises of the goal hold makes every step outside
    all sub-proofs true, and all conclusions of the goal if the session is complete. -/
theorem Session.premises_entail {config₀ config : Config} {logic : Logic}
    (hlogic : Logic.BuiltIn config₀ logic) (hconfig : config.replaceInContext = true)
    {script : List (Command × Advisor)}
    (hscript : ∀ entry ∈ script, entry.1.Within logic.calculus.Unreserved) {goal : Sequent}
    (hgoal : ((Session.new logic config).afterAll script).goal = some goal) (V : Valuation)
    (hV : ∀ form ∈ goal.premises, V.Holds form) :
    (∀ step ∈ ((Session.new logic config).afterAll script).derivation.steps,
      step.level = 0 → V.eval step.formula = true) ∧
    (((Session.new logic config).afterAll script).isComplete = true →
      ∀ c ∈ goal.conclusions, V.eval c = true) := by
  have hproper := (Proper.new logic config logic.calculus.Unreserved).afterAll hscript
  generalize (Session.new logic config).afterAll script = s at hgoal hproper ⊢
  obtain ⟨past, hgrown⟩ := hproper.grown
  rw [hgoal] at hgrown
  have hlevel : ∀ step ∈ s.derivation.steps, step.level = 0 → V.eval step.formula = true :=
    hgrown.eval_of_level_zero hlogic.truthful hconfig hV
  refine ⟨hlevel, ?_⟩
  intro hcomplete c hc
  unfold isComplete at hcomplete
  rw [hgoal] at hcomplete
  obtain ⟨step, hstep, hstated⟩ := List.any_eq_true.mp (List.all_eq_true.mp hcomplete c hc)
  rw [Bool.and_eq_true, beq_iff_eq, decide_eq_true_eq] at hstated
  rw [← hstated.2]
  exact hlevel step hstep hstated.1

/-- A derivation of `B -> A` from `A`, with a sub-proof for `B`. -/
def Session.entailmentScript : List (Command × Advisor) :=
  let a : Formula := .proposition "A"
  let b : Formula := .proposition "B"
  [ .start ⟨[.formula a], [.app ⟨"Conditional", .infixed⟩ [b, a]]⟩,
    .assume b,
    .infer "^I" [.step 1, .step 2],
    .infer "^E" [.step 3],
    .closeScope,
    .infer "->I" [.subproof 2 4] ].map (·, Advisor.firstChoice)

/-- The session of the Fitch logic after that derivation. -/
def Session.entailmentSession (logic : Logic) : Session :=
  (Session.new logic { replaceInContext := true }).afterAll entailmentScript

/-- Is the derivation one of the goal, by rules that are free to be used? -/
def Session.entailmentChecks (logic : Logic) : Bool :=
  (entailmentSession logic).isComplete &&
    (entailmentSession logic).goal.any (·.premises.map Form.formula? == [some (.proposition "A")])
    && ["^I", "^E", "->I"].all fun key =>
      !logic.calculus.assertionRule.isCalled key && !logic.calculus.subproofRule.isCalled key

theorem Session.premises_entail_fitch :
    ∃ logic goal, Logic.fitch {} = .ok logic ∧ (entailmentSession logic).goal = some goal ∧
      (entailmentSession logic).isComplete = true ∧ goal.premises = [.formula (.proposition "A")] ∧
      ∀ c ∈ goal.conclusions, (Valuation.ofAtoms fun s => s.name == "A").eval c = true := by
  have hrun : (Logic.fitch {}).toOption.any entailmentChecks = true := by decide +kernel
  obtain ⟨logic, hlogic, hchecks⟩ := Except.exists_ok_of_any hrun
  unfold entailmentChecks at hchecks
  simp only [Bool.and_eq_true, Option.any_eq_true, beq_iff_eq, List.all_cons, List.all_nil,
    Bool.not_eq_true', and_true] at hchecks
  obtain ⟨⟨hcomplete, goal, hgoal, hforms⟩, hI, hE, hC⟩ := hchecks
  have hpremises : goal.premises = [.formula (.proposition "A")] := by
    obtain ⟨form, hsingle, hform⟩ := List.map_eq_singleton_iff.mp hforms
    cases form with
    | sequent ps cs => cases hform
    | formula f =>
      rw [hsingle, Option.some.inj hform]
  have hscript : ∀ entry ∈ entailmentScript, entry.1.Within logic.calculus.Unreserved := by
    simp [entailmentScript, Command.Within, Calculus.Unreserved, hI, hE, hC]
  refine ⟨logic, goal, hlogic, hgoal, hcomplete, hpremises, ?_⟩
  refine (premises_entail (.inr (.inr hlogic)) rfl hscript hgoal _ ?_).2 hcomplete
  rw [hpremises]
  intro form hform
  rw [List.mem_singleton.mp hform]
  rfl

end NaturalDeduction
