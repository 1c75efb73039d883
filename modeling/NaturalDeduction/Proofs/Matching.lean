import NaturalDeduction.Proofs.Matching.Search

/-! # Matching yields instances

    If templates match forms, then the substitution that comes out makes the
    templates into these forms, up to their order. The reason has three parts,
    which are proved together: matching only adds bindings, it binds all
    variables of the template, and under the result the template becomes the
    formula. The first two parts let a match be kept while later templates are
    matched: bindings that are only added to do not change an instance all of
    whose variables are bound.
-/

namespace NaturalDeduction

namespace Substitution

/-! ### More bindings -/

/-- All bindings of `σ` are bindings of `τ`. -/
def Extends (τ σ : Substitution) : Prop := ∀ x f, σ.get? x = some f → τ.get? x = some f

/-- All of the names are bound. -/
def Binds (σ : Substitution) (names : List String) : Prop := ∀ x ∈ names, ∃ f, σ.get? x = some f

variable {ρ σ τ : Substitution} {names names' : List String}

theorem Extends.refl (σ : Substitution) : σ.Extends σ := fun _ _ h => h

theorem Extends.trans (h : ρ.Extends τ) (h' : τ.Extends σ) : ρ.Extends σ :=
  fun x f hx => h x f (h' x f hx)

theorem Extends.insert {x : String} {f : Formula} (hx : σ.get? x = none) :
    (σ.insert x f).Extends σ := by
  intro y g hy
  rw [get?_insert]
  by_cases hyx : y = x
  · rw [hyx, hx] at hy
    cases hy
  · rw [if_neg hyx]
    exact hy

theorem Binds.mono (h : σ.Binds names) (hext : τ.Extends σ) : τ.Binds names := by
  intro x hx
  obtain ⟨f, hf⟩ := h x hx
  exact ⟨f, hext x f hf⟩

theorem Binds.append (h : σ.Binds names) (h' : σ.Binds names') : σ.Binds (names ++ names') := by
  intro x hx
  rcases List.mem_append.mp hx with hmem | hmem
  · exact h x hmem
  · exact h' x hmem

theorem Binds.left (h : σ.Binds (names ++ names')) : σ.Binds names :=
  fun x hx => h x (List.mem_append_left _ hx)

theorem Binds.right (h : σ.Binds (names ++ names')) : σ.Binds names' :=
  fun x hx => h x (List.mem_append_right _ hx)

/-! ### Instances -/

mutual
/-- The instance of a form: all of its formulas with the bound formulas in place. -/
def applyForm (σ : Substitution) : Form → Form
  | .formula f => .formula (σ.apply f)
  | .sequent ps cs => .sequent (applyForms σ ps) (σ.applyAll cs)

/-- The instances of the forms of a list. -/
def applyForms (σ : Substitution) : List Form → List Form
  | [] => []
  | p :: ps => applyForm σ p :: applyForms σ ps
end

mutual
/-- More bindings do not change an instance all of whose variables are bound. -/
theorem apply_of_extends (hext : τ.Extends σ) :
    (t : Formula) → σ.Binds t.vars → τ.apply t = σ.apply t
  | .atom s => by
    intro hb
    by_cases hs : s.kind = .schema
    · obtain ⟨f, hf⟩ := hb s.name (by simp [Formula.vars, hs])
      simp only [apply, hs, if_true, hf, hext _ _ hf]
    · simp only [apply, hs, if_false]
  | .app op ts => by
    intro hb
    rw [apply, apply, applyAll_of_extends hext ts hb]

/-- The same for the formulas of a list. -/
theorem applyAll_of_extends (hext : τ.Extends σ) :
    (ts : List Formula) → σ.Binds (Formula.varsAll ts) → τ.applyAll ts = σ.applyAll ts
  | [] => fun _ => rfl
  | t :: ts => by
    intro hb
    rw [applyAll, applyAll, apply_of_extends hext t hb.left,
      applyAll_of_extends hext ts hb.right]
end

mutual
/-- More bindings do not change the instance of a form all of whose variables are bound. -/
theorem applyForm_of_extends (hext : τ.Extends σ) :
    (p : Form) → σ.Binds p.vars → τ.applyForm p = σ.applyForm p
  | .formula f => by
    intro hb
    rw [applyForm, applyForm, apply_of_extends hext f hb]
  | .sequent ps cs => by
    intro hb
    rw [applyForm, applyForm, applyForms_of_extends hext ps hb.left,
      applyAll_of_extends hext cs hb.right]

/-- The same for the forms of a list. -/
theorem applyForms_of_extends (hext : τ.Extends σ) :
    (ps : List Form) → σ.Binds (Form.varsAll ps) → τ.applyForms ps = σ.applyForms ps
  | [] => fun _ => rfl
  | p :: ps => by
    intro hb
    rw [applyForms, applyForms, applyForm_of_extends hext p hb.left,
      applyForms_of_extends hext ps hb.right]
end

end Substitution

/-! ### Matching one template -/

mutual
/-- A template that matches becomes the formula, by bindings that were there or were added. -/
theorem Formula.matchWith_sound :
    (t f : Formula) → (σ τ : Substitution) → t.matchWith f σ = (true, τ) →
      τ.Extends σ ∧ τ.Binds t.vars ∧ τ.apply t = f
  | .atom s, f, σ, τ => by
    intro h
    rw [matchWith] at h
    split at h
    · next hs =>
      -- a variable: it was bound to the formula before, or it is bound to it now
      have hbound : ∀ {ρ : Substitution}, ρ.get? s.name = some f →
          ρ.Binds (Formula.atom s).vars ∧ ρ.apply (.atom s) = f := by
        intro ρ hρ
        refine ⟨?_, ?_⟩
        · intro x hx
          simp only [vars, hs, if_true, List.mem_singleton] at hx
          exact ⟨f, hx ▸ hρ⟩
        · simp only [Substitution.apply, hs, if_true, hρ, Option.getD_some]
      split at h
      · next g hg =>
        obtain ⟨hgf, rfl⟩ := Prod.mk.inj h
        have heq : g = f := of_decide_eq_true hgf
        exact ⟨.refl _, hbound (heq ▸ hg)⟩
      · next hnone =>
        obtain ⟨_, rfl⟩ := Prod.mk.inj h
        refine ⟨.insert hnone, hbound ?_⟩
        rw [Substitution.get?_insert, if_pos rfl]
    · next hs =>
      -- a proposition: it matches only itself
      obtain ⟨hsf, rfl⟩ := Prod.mk.inj h
      have heq : Formula.atom s = f := of_decide_eq_true hsf
      refine ⟨.refl _, ?_, ?_⟩
      · intro x hx
        simp [vars, hs] at hx
      · simp only [Substitution.apply, hs, if_false, heq]
  | .app op ts, .app op' fs, σ, τ => by
    intro h
    rw [matchWith] at h
    split at h
    · next hop =>
      obtain ⟨hext, hb, happ⟩ := matchAllWith_sound ts fs σ τ h
      refine ⟨hext, hb, ?_⟩
      rw [Substitution.apply, happ, hop.1]
    · cases (Prod.mk.inj h).1
  | .app op ts, .atom s, σ, τ => by
    intro h
    rw [matchWith] at h
    cases (Prod.mk.inj h).1

/-- Templates that match one by one become the formulas. -/
theorem Formula.matchAllWith_sound :
    (ts fs : List Formula) → (σ τ : Substitution) → matchAllWith ts fs σ = (true, τ) →
      τ.Extends σ ∧ τ.Binds (varsAll ts) ∧ τ.applyAll ts = fs
  | [], [], σ, τ => by
    intro h
    obtain ⟨_, rfl⟩ := Prod.mk.inj h
    exact ⟨.refl _, fun x hx => absurd hx (by simp [varsAll]), rfl⟩
  | [], _ :: _, σ, τ => by
    intro h
    cases (Prod.mk.inj h).1
  | _ :: _, [], σ, τ => by
    intro h
    cases (Prod.mk.inj h).1
  | t :: ts, f :: fs, σ, τ => by
    intro h
    rw [matchAllWith] at h
    split at h
    · next ρ hρ =>
      obtain ⟨hext, hb, happ⟩ := matchWith_sound t f σ ρ hρ
      obtain ⟨hext', hb', happ'⟩ := matchAllWith_sound ts fs ρ τ h
      refine ⟨hext'.trans hext, (hb.mono hext').append hb', ?_⟩
      -- the variables of `t` were all bound before the rest was matched
      rw [Substitution.applyAll, Substitution.apply_of_extends hext' t hb, happ, happ']
    · cases (Prod.mk.inj h).1
end

mutual
/-- A template that matches becomes the form, by bindings that were there or were added. -/
theorem Form.matchWith_sound :
    (t f : Form) → (σ τ : Substitution) → t.matchWith f σ = (true, τ) →
      τ.Extends σ ∧ τ.Binds t.vars ∧ τ.applyForm t = f
  | .formula t, .formula f, σ, τ => by
    intro h
    rw [matchWith] at h
    obtain ⟨hext, hb, happ⟩ := Formula.matchWith_sound t f σ τ h
    refine ⟨hext, hb, ?_⟩
    rw [Substitution.applyForm, happ]
  | .sequent ps cs, .sequent qs ds, σ, τ => by
    intro h
    rw [matchWith] at h
    split at h
    · split at h
      · next ρ hρ =>
        obtain ⟨hext, hb, happ⟩ := matchAllWith_sound ps qs σ ρ hρ
        obtain ⟨hext', hb', happ'⟩ := Formula.matchAllWith_sound cs ds ρ τ h
        refine ⟨hext'.trans hext, (hb.mono hext').append hb', ?_⟩
        rw [Substitution.applyForm, Substitution.applyForms_of_extends hext' ps hb, happ, happ']
      · cases (Prod.mk.inj h).1
    · cases (Prod.mk.inj h).1
  | .formula _, .sequent _ _, σ, τ => by
    intro h
    cases (Prod.mk.inj h).1
  | .sequent _ _, .formula _, σ, τ => by
    intro h
    cases (Prod.mk.inj h).1

/-- Templates that match one by one become the forms. -/
theorem Form.matchAllWith_sound :
    (ts fs : List Form) → (σ τ : Substitution) → matchAllWith ts fs σ = (true, τ) →
      τ.Extends σ ∧ τ.Binds (varsAll ts) ∧ τ.applyForms ts = fs
  | [], [], σ, τ => by
    intro h
    obtain ⟨_, rfl⟩ := Prod.mk.inj h
    exact ⟨.refl _, fun x hx => absurd hx (by simp [varsAll]), rfl⟩
  | [], _ :: _, σ, τ => by
    intro h
    cases (Prod.mk.inj h).1
  | _ :: _, [], σ, τ => by
    intro h
    cases (Prod.mk.inj h).1
  | t :: ts, f :: fs, σ, τ => by
    intro h
    rw [matchAllWith] at h
    split at h
    · next ρ hρ =>
      obtain ⟨hext, hb, happ⟩ := matchWith_sound t f σ ρ hρ
      obtain ⟨hext', hb', happ'⟩ := matchAllWith_sound ts fs ρ τ h
      refine ⟨hext'.trans hext, (hb.mono hext').append hb', ?_⟩
      rw [Substitution.applyForms, Substitution.applyForm_of_extends hext' t hb, happ, happ']
    · cases (Prod.mk.inj h).1
end

/-! ### Matching in any order -/

/-- Taking a member out only changes the order. -/
theorem perm_of_mem_picks {α : Type} {xs : List α} {pick : α × List α} (h : pick ∈ picks xs) :
    xs.Perm (pick.1 :: pick.2) := by
  induction xs generalizing pick with
  | nil => cases h
  | cons x xs ih =>
    rw [picks] at h
    rcases List.mem_cons.mp h with rfl | hmem
    · exact .refl _
    · obtain ⟨⟨y, ys⟩, hy, rfl⟩ := List.mem_map.mp hmem
      exact ((ih hy).cons x).trans (.swap y x ys)

/-- The forms given to templates are their instances, up to order; `rest` is what was not given. -/
theorem Form.assign_sound {templates forms : List Form} {σ τ : Substitution}
    (h : assign templates forms σ = some τ) :
    τ.Extends σ ∧ τ.Binds (varsAll templates) ∧
      ∃ rest, forms.Perm (templates.map τ.applyForm ++ rest) := by
  induction templates generalizing forms σ with
  | nil =>
    obtain rfl : σ = τ := Option.some.inj h
    exact ⟨.refl _, fun x hx => absurd hx (by simp [varsAll]), forms, .refl _⟩
  | cons t ts ih =>
    rw [assign] at h
    obtain ⟨⟨f, others⟩, hpick, hf⟩ := List.exists_of_findSome?_eq_some h
    dsimp only at hf
    split at hf
    · next ρ hρ =>
      obtain ⟨hext, hb, happ⟩ := matchWith_sound t f σ ρ hρ
      obtain ⟨hext', hb', rest, hperm⟩ := ih hf
      refine ⟨hext'.trans hext, (hb.mono hext').append hb', rest, ?_⟩
      -- the first template keeps its form when the others are matched
      have hfirst : τ.applyForm t = f := by
        rw [Substitution.applyForm_of_extends hext' t hb, happ]
      rw [List.map_cons, hfirst]
      exact (perm_of_mem_picks hpick).trans (hperm.cons f)
    · cases hf

/-- Forms that match templates are the instances of the templates, up to their order. -/
theorem Form.matchInAnyOrder_sound {templates forms : List Form} {seed σ : Substitution}
    (h : matchInAnyOrder templates forms seed = .ok σ) :
    σ.Extends seed ∧ forms.Perm (templates.map σ.applyForm) := by
  unfold matchInAnyOrder at h
  split at h
  · next hlen =>
    rw [search_eq_assign] at h
    cases hassign : assign templates forms seed with
    | none => simp [hassign] at h
    | some τ =>
      obtain rfl : τ = σ := by simpa [hassign] using h
      obtain ⟨hext, _, rest, hperm⟩ := assign_sound hassign
      refine ⟨hext, ?_⟩
      -- there are as many templates as forms, so that every form was given to a template
      have hrest : rest = [] := by
        have hcount := hperm.length_eq
        rw [List.length_append, List.length_map, hlen] at hcount
        exact List.length_eq_zero_iff.mp (by omega)
      rwa [hrest, List.append_nil] at hperm
  · cases h

end NaturalDeduction
