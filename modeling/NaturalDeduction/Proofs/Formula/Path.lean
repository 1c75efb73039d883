import Mathlib.Data.List.Forall2
import NaturalDeduction.Formula.Path

/-! # Replacing a part of a formula

    Two formulas that differ in one part are the same around it: on the way
    down to the part they have the same operators, and at each operator the
    same operands beside the one that leads on (`Replaced`). This is what
    replacing at a path does, whenever the path leads somewhere.

    So if the two parts are related by a congruence, which is kept by every
    operator, then the formulas are related.
-/

namespace NaturalDeduction.Formula

variable {f g old new : Formula} {p : Path} {i : Nat}

/-! ### The same around a part -/

/-- The formula `g` has `new` at the path where `f` has `old`, and is the same as `f` around it. -/
inductive Replaced (old new : Formula) : Path → Formula → Formula → Prop where
  | here : Replaced old new [] old new
  | operand {op : Operator} {before after : List Formula} {p : Path} {f g : Formula} :
    Replaced old new p f g →
      Replaced old new (before.length :: p) (.app op (before ++ f :: after))
        (.app op (before ++ g :: after))

/-- A path below the root leads through an operand. -/
theorem at?_cons_eq_some (h : f.at? (i :: p) = some old) :
    ∃ op before operand after, f = .app op (before ++ operand :: after) ∧ i = before.length ∧
      operand.at? p = some old := by
  rw [at?_cons, Option.bind_eq_some_iff] at h
  obtain ⟨operand, hi, hbelow⟩ := h
  cases f with
  | atom s => simp [operands] at hi
  | app op fs =>
    rw [operands] at hi
    obtain ⟨hlt, hget⟩ := List.getElem?_eq_some_iff.mp hi
    refine ⟨op, fs.take i, operand, fs.drop (i + 1), ?_, ?_, hbelow⟩
    · rw [← hget, List.getElem_cons_drop, List.take_append_drop]
    · rw [List.length_take]
      exact (Nat.min_eq_left (Nat.le_of_lt hlt)).symm

theorem replaceAt?_operand (op : Operator) (before after : List Formula) (f : Formula) (p : Path)
    (new : Formula) :
    (app op (before ++ f :: after)).replaceAt? (before.length :: p) new =
      (f.replaceAt? p new).map fun g => .app op (before ++ g :: after) := by
  have hget : (before ++ f :: after)[before.length]? = some f := by simp
  simp only [replaceAt?, hget]
  cases f.replaceAt? p new <;> simp

/-- Whatever a path leads to can be replaced. -/
theorem exists_replaced (h : f.at? p = some old) (new : Formula) :
    ∃ g, f.replaceAt? p new = some g ∧ Replaced old new p f g := by
  induction p generalizing f with
  | nil =>
    rw [at?_nil, Option.some.injEq] at h
    exact ⟨new, replaceAt?_nil f new, h ▸ .here⟩
  | cons i p ih =>
    obtain ⟨op, before, operand, after, rfl, rfl, hbelow⟩ := at?_cons_eq_some h
    obtain ⟨g, hg, hreplaced⟩ := ih hbelow
    refine ⟨_, ?_, .operand hreplaced⟩
    rw [replaceAt?_operand, hg, Option.map_some]

/-! ### Variables -/

/-- A part has no variables but those of the formula. -/
theorem vars_subset_of_at? (h : f.at? p = some old) : old.vars ⊆ f.vars := by
  induction p generalizing f with
  | nil =>
    rw [at?_nil, Option.some.injEq] at h
    rw [h]
    exact List.Subset.refl _
  | cons i p ih =>
    obtain ⟨op, before, operand, after, rfl, _, hbelow⟩ := at?_cons_eq_some h
    intro x hx
    rw [vars, varsAll_eq, List.mem_flatMap]
    exact ⟨operand, List.mem_append_right _ List.mem_cons_self, ih hbelow hx⟩

/-! ### Congruences -/

/-- An equivalence relation that is kept when formulas are put as operands of an operator. -/
structure Congruence (R : Formula → Formula → Prop) : Prop where
  equivalence : Equivalence R
  app : ∀ op fs gs, List.Forall₂ R fs gs → R (.app op fs) (.app op gs)

/-- Related parts make related formulas. -/
theorem Replaced.related {R : Formula → Formula → Prop} (hR : Congruence R)
    (h : Replaced old new p f g) (hparts : R old new) : R f g := by
  induction h with
  | here => exact hparts
  | @operand op before after p f g _ ih =>
    have hsame : ∀ fs, List.Forall₂ R fs fs :=
      fun fs => List.forall₂_same.mpr fun f _ => hR.equivalence.refl f
    refine hR.app op _ _ ?_
    exact List.rel_append (hsame before) (.cons ih (hsame after))

end NaturalDeduction.Formula
