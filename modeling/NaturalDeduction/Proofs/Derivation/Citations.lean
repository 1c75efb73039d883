import NaturalDeduction.Proofs.Derivation.Visibility

/-! # Citations of steps

    The citations of a step are checked once, against the scopes that are open
    when the step is added. Those scopes may be closed later, and steps after it
    taken back, so that nothing of them is left but the levels of the steps.

    The levels still tell that a citation was in scope (`InScope`): the steps
    that it covers come before, and no step on the way left a scope that the
    citation needs. Since every step was added to a derivation with the same
    steps before it (`Grown.exists_before`), it is enough to know this of the
    citations that are visible.
-/

namespace NaturalDeduction

namespace Derivation

variable {d d' : Derivation} {n level : Nat} {c : Citation}

/-- What a step with the number `n` may cite from its level. A cited step is not deeper, and no step
    in between is less deep than the cited one. A cited sub-proof ends one level deeper, and from
    its start on no step is less deep than the citing one. -/
def InScope (d : Derivation) (n level : Nat) : Citation → Prop
  | .step k => ∃ l, d.levelAt k = some l ∧ l ≤ level ∧
      ∀ m, k < m → m < n → ∃ l', d.levelAt m = some l' ∧ l ≤ l'
  | .subproof a b => d.levelAt b = some (level + 1) ∧
      ∀ m, a ≤ m → m < n → ∃ l, d.levelAt m = some l ∧ level ≤ l

/-- Being in scope depends on the levels of the steps before. -/
theorem InScope.congr (h : d.InScope n level c) (hlast : c.last < n)
    (heq : ∀ k < n, d'.levelAt k = d.levelAt k) : d'.InScope n level c := by
  cases c with
  | step k =>
    obtain ⟨l, hl, hle, hbetween⟩ := h
    refine ⟨l, (heq k hlast).trans hl, hle, ?_⟩
    intro m hkm hmn
    rw [heq m hmn]
    exact hbetween m hkm hmn
  | subproof a b =>
    refine ⟨(heq b hlast).trans h.1, ?_⟩
    intro m ham hmn
    rw [heq m hmn]
    exact h.2 m ham hmn

/-- A visible citation is listed by the scope at some depth, a sub-proof by the current scope. -/
theorem exists_depth_of_isVisible (hc : d.isVisible c = true) :
    ∃ depth scope, d.scopes.toList[depth]? = some scope ∧ c ∈ scope ∧ depth ≤ d.depth ∧
      (c.isSubproof = true → depth = d.depth) := by
  have htoList : d.scopes.toList = d.scopes.outer.reverse ++ [d.scopes.current] :=
    List.reverse_cons
  have hlength : d.scopes.outer.reverse.length = d.depth := List.length_reverse
  unfold isVisible Scopes.isVisible at hc
  simp only [Bool.or_eq_true, Bool.and_eq_true, List.any_eq_true, List.contains_iff_mem] at hc
  rcases hc with ⟨hstep, scope, hscope, hcs⟩ | hcs
  · obtain ⟨depth, hdepth⟩ := List.mem_iff_getElem?.mp (List.mem_reverse.mpr hscope)
    have hlt := (List.getElem?_eq_some_iff.mp hdepth).1
    refine ⟨depth, scope, ?_, hcs, by omega, ?_⟩
    · rw [htoList, List.getElem?_append_left hlt]
      exact hdepth
    · intro hsub
      simp [hsub] at hstep
  · refine ⟨d.depth, d.scopes.current, ?_, hcs, Nat.le_refl _, fun _ => rfl⟩
    rw [htoList, ← hlength, List.getElem?_concat_length]

/-- What is visible is in scope for the next step. -/
theorem WellNested.inScope_of_isVisible (h : d.WellNested) (hc : d.isVisible c = true) :
    d.InScope (d.steps.length + 1) d.depth c := by
  obtain ⟨depth, scope, hscope, hcs, hle, hcurrent⟩ := exists_depth_of_isVisible hc
  obtain ⟨outer, lo, mid, _, _, htiles, hfits, hlevels⟩ := Nested.at_depth h hscope
  have hfirst := (htiles.bounds hcs).1
  cases c with
  | step k =>
    refine ⟨depth, hfits _ hcs, hle, ?_⟩
    intro m hkm hmn
    have hlo : lo < k := hfirst
    exact hlevels m (by omega) (by omega)
  | subproof a b =>
    obtain rfl := hcurrent rfl
    refine ⟨(hfits _ hcs).2, ?_⟩
    intro m ham hmn
    have hlo : lo < a := hfirst
    exact hlevels m (by omega) (by omega)

/-- **Justifications are in scope.** In every derivation that can be reached, each step states a
    concrete formula, and its citations cover steps before it only, which were in scope for it. -/
theorem Reachable.citations_in_scope (h : d.Reachable) {s : Step} (hs : d.step? n = some s) :
    s.formula.isConcrete = true ∧
    ∀ c ∈ s.citations, 1 ≤ c.first ∧ c.first ≤ c.last ∧ c.last < n ∧ d.InScope n s.level c := by
  obtain ⟨past, hhist⟩ := h
  obtain ⟨before, _, added, hbefore, _, hadd, rfl, _, hsame⟩ := hhist.grown.exists_before hs
  obtain ⟨hconcrete, hvisible, rfl, _⟩ := addStep_eq_ok_iff.mp hadd
  refine ⟨Formula.isConcrete_iff _ |>.mpr (Names.ofList_eq_nil_iff.mp hconcrete), ?_⟩
  intro c hc
  have hnested := hbefore.wellNested
  have hseen := hvisible c hc
  obtain ⟨hpos, hle, hlast⟩ := hnested.bounds hseen
  refine ⟨hpos, hle, Nat.lt_succ_of_le hlast, ?_⟩
  -- the levels of the steps before are those of the derivation to which the step was added
  refine (hnested.inScope_of_isVisible hseen).congr (Nat.lt_succ_of_le hlast) ?_
  intro k hk
  rw [levelAt, ← hsame k hk, levelAt]

/-- A step that cites another one and a sub-proof of the scope that it shares with them. -/
def citingStep : Step := { sampleStep "D" with citations := [.step 3, .subproof 2 2] }

/-- Before the citing step, the cited sub-proof is one level deeper and `C` at its own level. -/
theorem Reachable.citations_in_scope_citingStep :
    ((sampleNested 0).extend citingStep).Reachable ∧
      ((sampleNested 0).extend citingStep).step? 4 = some { citingStep with level := 1 } ∧
        ((sampleNested 0).extend citingStep).InScope 4 1 (.step 3) ∧
          ((sampleNested 0).extend citingStep).InScope 4 1 (.subproof 2 2) := by
  obtain ⟨past, hhist⟩ := reachable_sampleNested (.inl rfl)
  have hreach : ((sampleNested 0).extend citingStep).Reachable :=
    ⟨_, .addStep hhist (addStep_eq_ok_iff.mpr ⟨rfl, by decide, rfl, rfl⟩)⟩
  have hstep : ((sampleNested 0).extend citingStep).step? 4 = some { citingStep with level := 1 } :=
    rfl
  obtain ⟨_, hcitations⟩ := hreach.citations_in_scope hstep
  exact ⟨hreach, hstep, (hcitations (.step 3) (by decide)).2.2.2,
    (hcitations (.subproof 2 2) (by decide)).2.2.2⟩

end Derivation

end NaturalDeduction
