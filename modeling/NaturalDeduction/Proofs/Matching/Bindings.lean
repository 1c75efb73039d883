import NaturalDeduction.Proofs.Matching.Complete

/-! # What matching binds, in which order

    A match reads the template from left to right and adds a binding for each
    variable that it meets for the first time, at the end of the bindings there
    are. A match that fails has gone this way up to the place of the failure:

    * **Order**: the names that a match has added are those variables of the
      template that were not bound, in the order in which they first occur. If
      it fails, they are the first of these (`Adds`).
    * **Exactness**: a template matches exactly the formulas that it can be
      made into by a substitution with the bindings there are, and the match
      finds what each such substitution puts for the variables.
-/

namespace NaturalDeduction

namespace Substitution

variable {σ ρ τ : Substitution} {x : String} {names names' : List String}

/-! ### Bindings at the end -/

/-- The substitution `τ` is `σ` with formulas for some names added at the end, in this order. -/
def Appends (τ σ : Substitution) (names : List String) : Prop :=
  ∃ added, τ.entries = σ.entries ++ added ∧ added.map Prod.fst = names

/-- Of a list of names those that are not bound, each once, in the order in which they first occur. -/
def fresh (σ : Substitution) (names : List String) : List String :=
  (names.filter fun x => !σ.contains x).eraseDups

theorem mem_fresh : x ∈ σ.fresh names ↔ x ∈ names ∧ σ.get? x = none := by
  rw [fresh, List.mem_eraseDups, List.mem_filter, Bool.not_eq_true', ← Bool.not_eq_true,
    not_contains_iff]

theorem contains_iff_mem : σ.contains x = true ↔ x ∈ σ.entries.map Prod.fst := by
  rw [contains, get?, List.lookup_isSome_iff]
  constructor
  · intro h
    obtain ⟨entry, hmem, hname⟩ := h
    exact List.mem_map.mpr ⟨entry, hmem, (eq_of_beq hname).symm⟩
  · intro h
    obtain ⟨entry, hmem, hname⟩ := List.mem_map.mp h
    exact ⟨entry, hmem, beq_iff_eq.mpr hname.symm⟩

theorem Appends.refl (σ : Substitution) : σ.Appends σ [] :=
  ⟨[], (List.append_nil _).symm, rfl⟩

theorem Appends.trans (h : ρ.Appends σ names) (h' : τ.Appends ρ names') :
    τ.Appends σ (names ++ names') := by
  obtain ⟨added, hρ, hnames⟩ := h
  obtain ⟨added', hτ, hnames'⟩ := h'
  refine ⟨added ++ added', ?_, ?_⟩
  · rw [hτ, hρ, List.append_assoc]
  · rw [List.map_append, hnames, hnames']

/-- A name that is not bound yet gets its place at the end. -/
theorem entries_insert (f : Formula) (hx : x ∉ σ.entries.map Prod.fst) :
    (σ.insert x f).entries = σ.entries ++ [(x, f)] := by
  show insertEntry x f σ.entries = σ.entries ++ [(x, f)]
  generalize σ.entries = entries at hx
  induction entries with
  | nil => rfl
  | cons entry rest ih =>
    rw [List.map_cons, List.mem_cons, not_or] at hx
    rw [insertEntry, if_neg (Ne.symm hx.1), ih hx.2, List.cons_append]

theorem Appends.insert (f : Formula) (hx : σ.get? x = none) : (σ.insert x f).Appends σ [x] := by
  refine ⟨[(x, f)], entries_insert f ?_, rfl⟩
  rwa [← contains_iff_mem, not_contains_iff]

theorem Appends.contains_iff (h : τ.Appends σ names) :
    τ.contains x = true ↔ σ.contains x = true ∨ x ∈ names := by
  obtain ⟨added, hτ, hnames⟩ := h
  rw [contains_iff_mem, contains_iff_mem, hτ, List.map_append, List.mem_append, hnames]

/-- Bindings that were there stay. -/
theorem Appends.extends (h : τ.Appends σ names) : τ.Extends σ := by
  obtain ⟨added, hτ, _⟩ := h
  intro x f hx
  rw [get?] at hx
  rw [get?, hτ, List.lookup_append, hx]
  rfl

/-! ### Names that are not bound yet -/

theorem fresh_initial (σ : Substitution) (names names' : List String) :
    σ.fresh names <+: σ.fresh (names ++ names') := by
  rw [fresh, fresh, List.filter_append, List.eraseDups_append]
  exact List.prefix_append _ _

/-- The names of two lists that are not bound are those of the first list, and then those of the
    second list that are still not bound when these are. -/
theorem fresh_append (h : τ.Appends σ (σ.fresh names)) :
    σ.fresh (names ++ names') = σ.fresh names ++ τ.fresh names' := by
  rw [fresh, List.filter_append, List.eraseDups_append, ← fresh]
  congr 1
  rw [fresh, List.removeAll, List.filter_filter]
  congr 1
  apply List.filter_congr
  intro x hx
  have hbound : τ.contains x = true ↔
      σ.contains x = true ∨ x ∈ names.filter fun x => !σ.contains x := by
    rw [h.contains_iff, fresh, List.mem_eraseDups]
  rw [Bool.eq_iff_iff, Bool.and_eq_true, Bool.not_eq_true', Bool.not_eq_true', Bool.not_eq_true',
    ← Bool.not_eq_true, ← Bool.not_eq_true, ← Bool.not_eq_true, hbound, List.elem_eq_mem,
    decide_eq_true_iff, not_or, and_comm]

/-! ### Matches -/

/-- The outcome of a match of a template with these variables: of those that were not bound, it has
    added the first ones, and all of them if it has succeeded. -/
def Adds (σ : Substitution) (vars : List String) (outcome : Bool × Substitution) : Prop :=
  ∃ names, outcome.2.Appends σ names ∧ names <+: σ.fresh vars ∧
    (outcome.1 = true → names = σ.fresh vars)

/-- Nothing is added by a failure right at the start. -/
theorem Adds.failed (σ : Substitution) (vars : List String) : σ.Adds vars (false, σ) :=
  ⟨[], .refl σ, List.nil_prefix, nofun⟩

/-- Nothing is added where there is nothing to bind. -/
theorem Adds.bound {vars : List String} (h : σ.fresh vars = []) (succeeds : Bool) :
    σ.Adds vars (succeeds, σ) :=
  ⟨[], .refl σ, List.nil_prefix, fun _ => h.symm⟩

end Substitution

open Substitution

mutual
/-- A match adds variables of the template in the order in which they occur. -/
theorem Formula.matchWith_adds : (t f : Formula) → (σ : Substitution) →
    σ.Adds t.vars (t.matchWith f σ)
  | .atom ⟨x, .schema⟩, f, σ => by
    by_cases hx : σ.get? x = none
    · have hfresh : σ.fresh [x] = [x] := by
        have hunbound : σ.contains x = false := by
          rw [← Bool.not_eq_true, not_contains_iff]
          exact hx
        simp [fresh, hunbound, List.eraseDups_cons]
      simp only [matchWith, vars, if_true, hx]
      refine ⟨[x], .insert f hx, ⟨[], ?_⟩, fun _ => hfresh.symm⟩
      rw [hfresh, List.append_nil]
    · obtain ⟨g, hg⟩ := Option.ne_none_iff_exists'.mp hx
      simp only [matchWith, vars, if_true, hg]
      refine .bound ?_ _
      rw [List.eq_nil_iff_forall_not_mem]
      intro y hy
      obtain ⟨hmem, hnone⟩ := mem_fresh.mp hy
      rw [List.mem_singleton.mp hmem, hg] at hnone
      cases hnone
  | .atom ⟨x, .proposition⟩, f, σ => by
    simp only [matchWith, vars, reduceCtorEq, if_false]
    exact .bound rfl _
  | .app op ts, .app op' fs, σ => by
    rw [matchWith, vars]
    by_cases hop : op = op' ∧ ts.length = fs.length
    · rw [if_pos hop]
      exact matchAllWith_adds ts fs σ
    · rw [if_neg hop]
      exact .failed σ _
  | .app op ts, .atom s, σ => by
    rw [matchWith]
    exact .failed σ _

/-- The same for templates that are matched one by one. -/
theorem Formula.matchAllWith_adds : (ts fs : List Formula) → (σ : Substitution) →
    σ.Adds (varsAll ts) (matchAllWith ts fs σ)
  | [], [], σ => .bound rfl true
  | [], _ :: _, σ => .failed σ _
  | _ :: _, [], σ => .failed σ _
  | t :: ts, f :: fs, σ => by
    obtain ⟨names, hadded, hfirst, hall⟩ := matchWith_adds t f σ
    rw [matchAllWith, varsAll]
    split
    · next ρ hρ =>
      -- the first template matches, so that all of its variables are bound in `ρ`
      rw [hρ] at hadded hall
      rw [hall rfl] at hadded
      obtain ⟨names', hadded', hfirst', hall'⟩ := matchAllWith_adds ts fs ρ
      refine ⟨σ.fresh t.vars ++ names', hadded.trans hadded', ?_, ?_⟩
      · rw [fresh_append hadded]
        exact (List.prefix_append_right_inj _).mpr hfirst'
      · intro hsucceeds
        rw [fresh_append hadded, hall' hsucceeds]
    · next ρ hρ =>
      rw [hρ] at hadded
      exact ⟨names, hadded, hfirst.trans (fresh_initial σ _ _), nofun⟩
end

variable {σ b : Substitution}

/-- A match finds what a substitution puts for the variables, if it makes the template into the
    formula and has the bindings there are. -/
theorem Formula.matchWith_finds (t : Formula) (h : σ.Extends b) :
    ∃ τ, t.matchWith (σ.apply t) b = (true, τ) ∧
      ∀ x ∈ t.vars, τ.get? x = some (σ.apply (.schema x)) := by
  obtain ⟨τ, hmatch, hrespects⟩ := matchWith_complete t (σ.apply t) b h.respects rfl
  obtain ⟨_, hbinds, _⟩ := matchWith_sound t (σ.apply t) b τ hmatch
  refine ⟨τ, hmatch, ?_⟩
  intro x hx
  obtain ⟨f, hf⟩ := hbinds x hx
  rw [hf, hrespects x f hf]

/-- **Matching is exact.** A template matches a formula exactly if a substitution with the bindings
    there are makes it into the formula. Then the outcome is the bindings there were, and after them
    one for each variable of the template that was not bound, in the order in which these first
    occur; under it the template becomes the formula. After a failure too, the bindings there were
    are in their places, and only variables of the template were added, the first of these. With any
    substitution that has the bindings there are, the template matches its instance, and the
    outcome has what the substitution puts for the variables. -/
theorem Formula.matchWith_exact (t f : Formula) (b : Substitution) :
    ((t.matchWith f b).1 = true ↔ ∃ σ : Substitution, σ.Extends b ∧ σ.apply t = f) ∧
    ((t.matchWith f b).1 = true →
      (t.matchWith f b).2.Appends b (b.fresh t.vars) ∧ (t.matchWith f b).2.apply t = f) ∧
    (t.matchWith f b).2.Extends b ∧
    (∃ names, (t.matchWith f b).2.Appends b names ∧ names <+: b.fresh t.vars ∧
      ∀ x ∈ names, x ∈ t.vars) ∧
    ∀ σ : Substitution, σ.Extends b →
      (t.matchWith (σ.apply t) b).1 = true ∧
      ∀ x ∈ t.vars, (t.matchWith (σ.apply t) b).2.get? x = some (σ.apply (.schema x)) := by
  obtain ⟨names, hadded, hfirst, hall⟩ := matchWith_adds t f b
  have hsound : (t.matchWith f b).1 = true → (t.matchWith f b).2.apply t = f := by
    intro h
    exact (matchWith_sound t f b _ (Prod.ext h rfl)).2.2
  refine ⟨⟨?_, ?_⟩, ?_, hadded.extends, ⟨names, hadded, hfirst, ?_⟩, ?_⟩
  · intro h
    exact ⟨_, hadded.extends, hsound h⟩
  · rintro ⟨σ, hσ, rfl⟩
    obtain ⟨τ, hmatch, _⟩ := matchWith_finds t hσ
    rw [hmatch]
  · intro h
    rw [← hall h]
    exact ⟨hadded, hsound h⟩
  · intro x hx
    exact (mem_fresh.mp (hfirst.subset hx)).1
  · intro σ hσ
    obtain ⟨τ, hmatch, hfinds⟩ := matchWith_finds t hσ
    rw [hmatch]
    exact ⟨rfl, hfinds⟩

/-- A template with a variable that occurs twice. -/
def Formula.sampleTemplate : Formula :=
  .app ⟨"Conditional", .infixed⟩
    [.app ⟨"Conjunction", .infixed⟩ [.schema "Q", .schema "P"],
      .app ⟨"Disjunction", .infixed⟩ [.schema "R", .schema "Q"]]

/-- What the variables of the template stand for. -/
def Substitution.sampleValues : Substitution :=
  .ofList [("P", .proposition "A"), ("Q", .proposition "B"), ("R", .schema "P")]

/-- With `P` bound already, the other variables are added as they occur; a formula with different
    parts for `Q` is refused after both of them are added. -/
theorem Formula.matchWith_exact_sampleTemplate :
    let b := Substitution.empty.insert "P" (.proposition "A")
    Substitution.sampleValues.Extends b ∧ b.fresh sampleTemplate.vars = ["Q", "R"] ∧
      (sampleTemplate.matchWith (Substitution.sampleValues.apply sampleTemplate) b).2.Appends b
        ["Q", "R"] ∧
      (sampleTemplate.matchWith (Substitution.sampleValues.apply sampleTemplate) b).2.get? "R" =
        some (.schema "P") ∧
      ¬ ∃ σ : Substitution, σ.Extends b ∧ σ.apply sampleTemplate =
        .app ⟨"Conditional", .infixed⟩
          [.app ⟨"Conjunction", .infixed⟩ [.proposition "B", .proposition "A"],
            .app ⟨"Disjunction", .infixed⟩ [.proposition "C", .proposition "C"]] := by
  intro b
  have hvalues : Substitution.sampleValues.Extends b := by
    intro x f hx
    rw [Substitution.get?_insert] at hx
    split at hx
    · next hname =>
      rw [hname, ← hx]
      rfl
    · cases hx
  have hfresh : b.fresh sampleTemplate.vars = ["Q", "R"] := by decide
  obtain ⟨hmatch, hfinds⟩ :=
    (matchWith_exact sampleTemplate (.schema "P") b).2.2.2.2 Substitution.sampleValues hvalues
  refine ⟨hvalues, hfresh, ?_, hfinds "R" (by decide), ?_⟩
  · rw [← hfresh]
    exact ((matchWith_exact sampleTemplate _ b).2.1 hmatch).1
  · rw [← (matchWith_exact sampleTemplate _ b).1]
    decide

end NaturalDeduction
