import NaturalDeduction.Proofs.Matching

/-! # Matching misses nothing

    What matching binds is forced. Take any substitution that makes a template
    into a formula and agrees with the bindings there are. It also agrees with
    each binding that matching adds (`Respects`), because a variable is bound
    only to what stands in its place. So no check on the way can fail, and the
    template matches each of its instances.

    * **Names**: matching binds no name that is not a variable of the template,
      whether it succeeds or not.
    * **Variables of instances**: a variable in an instance comes from what a
      variable of the template stands for (`mem_vars_apply`). An instance is
      concrete if all of these are.
-/

namespace NaturalDeduction

namespace Substitution

variable {σ τ b : Substitution}

/-! ### Agreement -/

/-- For every name that `b` binds, `σ` puts the formula that it is bound to. -/
def Respects (σ b : Substitution) : Prop := ∀ x f, b.get? x = some f → σ.apply (.schema x) = f

@[simp] theorem apply_schema (σ : Substitution) (x : String) :
    σ.apply (.schema x) = (σ.get? x).getD (.schema x) := by
  simp only [Formula.schema, apply, if_true]

theorem Extends.respects (h : σ.Extends b) : σ.Respects b := by
  intro x f hx
  rw [apply_schema, h x f hx, Option.getD_some]

theorem Respects.insert {x : String} {f : Formula} (h : σ.Respects b)
    (hx : σ.apply (.schema x) = f) : σ.Respects (b.insert x f) := by
  intro y g hy
  rw [get?_insert] at hy
  by_cases hyx : y = x
  · rw [if_pos hyx, Option.some.injEq] at hy
    rw [hyx, hx, hy]
  · rw [if_neg hyx] at hy
    exact h y g hy

theorem extends_empty (σ : Substitution) : σ.Extends .empty := by
  intro x f hx
  simp at hx

theorem length_applyAll (σ : Substitution) (ts : List Formula) :
    (σ.applyAll ts).length = ts.length := by
  rw [applyAll_eq, List.length_map]

theorem applyForms_eq (σ : Substitution) (ps : List Form) : σ.applyForms ps = ps.map σ.applyForm := by
  induction ps with
  | nil => rfl
  | cons p ps ih => rw [applyForms, ih, List.map_cons]

/-! ### Variables of instances -/

mutual
/-- The variables of an instance are those of what the variables of the template stand for. -/
theorem mem_vars_apply {x : String} : (t : Formula) →
    (x ∈ (σ.apply t).vars ↔ ∃ y ∈ t.vars, x ∈ (σ.apply (.schema y)).vars)
  | .atom s => by
    obtain ⟨name, kind⟩ := s
    cases kind with
    | schema => simp only [Formula.vars, if_true, List.mem_singleton, exists_eq_left]; rfl
    | proposition => simp [apply, Formula.vars]
  | .app op ts => by
    rw [apply, Formula.vars, Formula.vars]
    exact mem_varsAll_applyAll ts

/-- The same for the formulas of a list. -/
theorem mem_varsAll_applyAll {x : String} : (ts : List Formula) →
    (x ∈ Formula.varsAll (σ.applyAll ts) ↔
      ∃ y ∈ Formula.varsAll ts, x ∈ (σ.apply (.schema y)).vars)
  | [] => by simp [applyAll, Formula.varsAll]
  | t :: ts => by
    have ht := mem_vars_apply (x := x) t
    have hts := mem_varsAll_applyAll (x := x) ts
    rw [applyAll, Formula.varsAll, Formula.varsAll, List.mem_append, ht, hts]
    simp only [List.mem_append, or_and_right, exists_or]
end

mutual
/-- The variables of an instance of a form are those of what its variables stand for. -/
theorem mem_vars_applyForm {x : String} : (p : Form) →
    (x ∈ (σ.applyForm p).vars ↔ ∃ y ∈ p.vars, x ∈ (σ.apply (.schema y)).vars)
  | .formula f => by
    rw [applyForm, Form.vars, Form.vars, mem_vars_apply f]
  | .sequent ps cs => by
    have hps := mem_varsAll_applyForms (x := x) ps
    rw [applyForm, Form.vars, Form.vars, List.mem_append, hps, mem_varsAll_applyAll cs]
    simp only [List.mem_append, or_and_right, exists_or]

/-- The same for the forms of a list. -/
theorem mem_varsAll_applyForms {x : String} : (ps : List Form) →
    (x ∈ Form.varsAll (σ.applyForms ps) ↔
      ∃ y ∈ Form.varsAll ps, x ∈ (σ.apply (.schema y)).vars)
  | [] => by simp [applyForms, Form.varsAll]
  | p :: ps => by
    have hp := mem_vars_applyForm (x := x) p
    have hps := mem_varsAll_applyForms (x := x) ps
    rw [applyForms, Form.varsAll, Form.varsAll, List.mem_append, hp, hps]
    simp only [List.mem_append, or_and_right, exists_or]
end

end Substitution

/-! ### Every instance is matched -/

section Instances

variable {σ : Substitution}

mutual
/-- A template matches its instances, if these agree with the bindings there are. -/
theorem Formula.matchWith_complete : (t f : Formula) → (b : Substitution) → σ.Respects b →
    σ.apply t = f → ∃ τ, t.matchWith f b = (true, τ) ∧ σ.Respects τ
  | .atom ⟨x, .schema⟩, f, b => by
    intro hb hf
    by_cases hx : b.get? x = none
    · refine ⟨b.insert x f, ?_, hb.insert hf⟩
      simp only [matchWith, if_true, hx]
    · -- the variable is bound already, and `σ` agrees with that
      obtain ⟨g, hg⟩ := Option.ne_none_iff_exists'.mp hx
      have hgf : g = f := (hb x g hg).symm.trans hf
      refine ⟨b, ?_, hb⟩
      simp only [matchWith, if_true, hg, hgf, decide_true]
  | .atom ⟨x, .proposition⟩, f, b => by
    intro hb hf
    refine ⟨b, ?_, hb⟩
    simp only [Substitution.apply, reduceCtorEq, if_false] at hf
    simp only [matchWith, reduceCtorEq, if_false, hf, decide_true]
  | .app op ts, f, b => by
    intro hb hf
    obtain ⟨τ, hmatch, hτ⟩ := matchAllWith_complete ts (σ.applyAll ts) b hb rfl
    refine ⟨τ, ?_, hτ⟩
    rw [← hf, Substitution.apply, matchWith,
      if_pos ⟨rfl, (Substitution.length_applyAll σ ts).symm⟩, hmatch]

/-- Templates match their instances one by one. -/
theorem Formula.matchAllWith_complete : (ts fs : List Formula) → (b : Substitution) →
    σ.Respects b → σ.applyAll ts = fs → ∃ τ, matchAllWith ts fs b = (true, τ) ∧ σ.Respects τ
  | [], fs, b => by
    intro hb hfs
    refine ⟨b, ?_, hb⟩
    rw [← hfs, Substitution.applyAll, matchAllWith]
  | t :: ts, fs, b => by
    intro hb hfs
    obtain ⟨ρ, hfirst, hρ⟩ := matchWith_complete t (σ.apply t) b hb rfl
    obtain ⟨τ, hrest, hτ⟩ := matchAllWith_complete ts (σ.applyAll ts) ρ hρ rfl
    refine ⟨τ, ?_, hτ⟩
    simp only [← hfs, Substitution.applyAll, matchAllWith, hfirst, hrest]
end

mutual
/-- A form matches its instances, if these agree with the bindings there are. -/
theorem Form.matchWith_complete : (t f : Form) → (b : Substitution) → σ.Respects b →
    σ.applyForm t = f → ∃ τ, t.matchWith f b = (true, τ) ∧ σ.Respects τ
  | .formula t, f, b => by
    intro hb hf
    obtain ⟨τ, hmatch, hτ⟩ := Formula.matchWith_complete t (σ.apply t) b hb rfl
    refine ⟨τ, ?_, hτ⟩
    rw [← hf, Substitution.applyForm, matchWith, hmatch]
  | .sequent ps cs, f, b => by
    intro hb hf
    obtain ⟨ρ, hpremises, hρ⟩ := matchAllWith_complete ps (σ.applyForms ps) b hb rfl
    obtain ⟨τ, hconclusions, hτ⟩ :=
      Formula.matchAllWith_complete cs (σ.applyAll cs) ρ hρ rfl
    have hlengths : ps.length = (σ.applyForms ps).length ∧
        cs.length = (σ.applyAll cs).length := by
      rw [Substitution.applyForms_eq, Substitution.length_applyAll, List.length_map]
      exact ⟨rfl, rfl⟩
    refine ⟨τ, ?_, hτ⟩
    rw [← hf, Substitution.applyForm, matchWith, if_pos hlengths, hpremises]
    exact hconclusions

/-- Forms match their instances one by one. -/
theorem Form.matchAllWith_complete : (ts fs : List Form) → (b : Substitution) →
    σ.Respects b → σ.applyForms ts = fs → ∃ τ, matchAllWith ts fs b = (true, τ) ∧ σ.Respects τ
  | [], fs, b => by
    intro hb hfs
    refine ⟨b, ?_, hb⟩
    rw [← hfs, Substitution.applyForms, matchAllWith]
  | t :: ts, fs, b => by
    intro hb hfs
    obtain ⟨ρ, hfirst, hρ⟩ := matchWith_complete t (σ.applyForm t) b hb rfl
    obtain ⟨τ, hrest, hτ⟩ := matchAllWith_complete ts (σ.applyForms ts) ρ hρ rfl
    refine ⟨τ, ?_, hτ⟩
    simp only [← hfs, Substitution.applyForms, matchAllWith, hfirst, hrest]
end

end Instances

/-! ### Only variables are bound -/

/-- What `τ` binds was bound by `b`, or is the name of one of the variables. -/
def Substitution.OnlyBinds (τ b : Substitution) (vars : List String) : Prop :=
  ∀ x f, τ.get? x = some f → b.get? x = some f ∨ x ∈ vars

namespace Substitution.OnlyBinds

variable {ρ τ b : Substitution} {vars vars' : List String}

theorem refl (b : Substitution) (vars : List String) : b.OnlyBinds b vars :=
  fun _ _ hx => .inl hx

theorem mono (h : τ.OnlyBinds b vars) (hsub : vars ⊆ vars') : τ.OnlyBinds b vars' := by
  intro x f hx
  exact (h x f hx).imp_right fun hmem => hsub hmem

theorem trans (h : ρ.OnlyBinds b vars) (h' : τ.OnlyBinds ρ vars') :
    τ.OnlyBinds b (vars ++ vars') := by
  intro x f hx
  rcases h' x f hx with hρ | hmem
  · exact (h x f hρ).imp_right fun hmem => List.mem_append_left _ hmem
  · exact .inr (List.mem_append_right _ hmem)

end Substitution.OnlyBinds

mutual
theorem Formula.matchWith_onlyBinds : (t f : Formula) → (b : Substitution) →
    (t.matchWith f b).2.OnlyBinds b t.vars
  | .atom ⟨x, .schema⟩, f, b => by
    by_cases hx : b.get? x = none
    · simp only [matchWith, if_true, hx, vars]
      intro y g hy
      rw [Substitution.get?_insert] at hy
      by_cases hyx : y = x
      · exact .inr (List.mem_singleton.mpr hyx)
      · rw [if_neg hyx] at hy
        exact .inl hy
    · obtain ⟨g, hg⟩ := Option.ne_none_iff_exists'.mp hx
      simp only [matchWith, if_true, hg]
      exact .refl b _
  | .atom ⟨x, .proposition⟩, f, b => by
    simp only [matchWith, reduceCtorEq, if_false]
    exact .refl b _
  | .app op ts, .app op' fs, b => by
    rw [matchWith, vars]
    by_cases hop : op = op' ∧ ts.length = fs.length
    · rw [if_pos hop]
      exact matchAllWith_onlyBinds ts fs b
    · rw [if_neg hop]
      exact .refl b _
  | .app op ts, .atom s, b => by
    rw [matchWith]
    exact .refl b _

theorem Formula.matchAllWith_onlyBinds : (ts fs : List Formula) → (b : Substitution) →
    (matchAllWith ts fs b).2.OnlyBinds b (varsAll ts)
  | [], fs, b => by
    cases fs <;> exact .refl b _
  | _ :: _, [], b => .refl b _
  | t :: ts, f :: fs, b => by
    have hfirst := matchWith_onlyBinds t f b
    rw [matchAllWith, varsAll]
    split
    · next ρ hρ =>
      rw [hρ] at hfirst
      exact hfirst.trans (matchAllWith_onlyBinds ts fs ρ)
    · next ρ hρ =>
      rw [hρ] at hfirst
      exact hfirst.mono (List.subset_append_left _ _)
end

mutual
theorem Form.matchWith_onlyBinds : (t f : Form) → (b : Substitution) →
    (t.matchWith f b).2.OnlyBinds b t.vars
  | .formula t, .formula f, b => by
    rw [matchWith, vars]
    exact Formula.matchWith_onlyBinds t f b
  | .sequent ps cs, .sequent qs ds, b => by
    have hpremises := matchAllWith_onlyBinds ps qs b
    rw [matchWith, vars]
    split
    · split
      · next ρ hρ =>
        rw [hρ] at hpremises
        exact hpremises.trans (Formula.matchAllWith_onlyBinds cs ds ρ)
      · next ρ hρ =>
        rw [hρ] at hpremises
        exact hpremises.mono (List.subset_append_left _ _)
    · exact .refl b _
  | .formula _, .sequent _ _, b => .refl b _
  | .sequent _ _, .formula _, b => .refl b _

theorem Form.matchAllWith_onlyBinds : (ts fs : List Form) → (b : Substitution) →
    (matchAllWith ts fs b).2.OnlyBinds b (varsAll ts)
  | [], fs, b => by
    cases fs <;> exact .refl b _
  | _ :: _, [], b => .refl b _
  | t :: ts, f :: fs, b => by
    have hfirst := matchWith_onlyBinds t f b
    rw [matchAllWith, varsAll]
    split
    · next ρ hρ =>
      rw [hρ] at hfirst
      exact hfirst.trans (matchAllWith_onlyBinds ts fs ρ)
    · next ρ hρ =>
      rw [hρ] at hfirst
      exact hfirst.mono (List.subset_append_left _ _)
end

end NaturalDeduction
