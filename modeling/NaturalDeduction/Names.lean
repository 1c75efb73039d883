/-! # Ascending lists of names

    The schema variables of a formula are reported as a list of names in
    ascending order without repetition. Names are compared character by
    character, by code point.
-/

namespace NaturalDeduction.Names

/-- Puts a name at its place in an ascending list; a name already there is not repeated. -/
def insert (name : String) : List String → List String
  | [] => [name]
  | x :: xs =>
    if name < x then name :: x :: xs
    else if name = x then x :: xs
    else x :: insert name xs

/-- The names of a list in ascending order, each once. -/
def ofList (names : List String) : List String :=
  names.foldr insert []

/-! ### Members -/

@[simp] theorem mem_insert {name x : String} {xs : List String} :
    x ∈ insert name xs ↔ x = name ∨ x ∈ xs := by
  induction xs with
  | nil => simp [insert]
  | cons y ys ih =>
    unfold insert
    split
    · simp
    · split
      · rename_i h
        simp [h]
      · simp [ih]
        constructor <;> rintro (h | h | h) <;> simp [h]

@[simp] theorem mem_ofList {x : String} {xs : List String} : x ∈ ofList xs ↔ x ∈ xs := by
  induction xs with
  | nil => simp [ofList]
  | cons y ys ih => simp only [ofList, List.foldr_cons, mem_insert, List.mem_cons] at ih ⊢; rw [ih]

@[simp] theorem ofList_eq_nil_iff {xs : List String} : ofList xs = [] ↔ xs = [] := by
  constructor
  · intro h
    cases xs with
    | nil => rfl
    | cons y ys =>
      have hy : y ∈ ofList (y :: ys) := mem_ofList.2 (by simp)
      rw [h] at hy
      exact absurd hy (by simp)
  · rintro rfl
    rfl

/-! ### Order -/

theorem pairwise_insert (name : String) {xs : List String} (h : xs.Pairwise (· < ·)) :
    (insert name xs).Pairwise (· < ·) := by
  induction xs with
  | nil => exact List.pairwise_singleton _ _
  | cons x xs ih =>
    obtain ⟨hx, hxs⟩ := List.pairwise_cons.mp h
    unfold insert
    by_cases hlt : name < x
    · rw [if_pos hlt]
      refine List.pairwise_cons.mpr ⟨?_, h⟩
      intro y hy
      rcases List.mem_cons.mp hy with rfl | hmem
      · exact hlt
      · exact String.lt_trans hlt (hx y hmem)
    · rw [if_neg hlt]
      by_cases heq : name = x
      · rw [if_pos heq]
        exact h
      · rw [if_neg heq]
        have hgt : x < name := Std.lt_of_le_of_ne (String.not_lt.mp hlt) (Ne.symm heq)
        refine List.pairwise_cons.mpr ⟨?_, ih hxs⟩
        intro y hy
        rcases mem_insert.mp hy with rfl | hmem
        · exact hgt
        · exact hx y hmem

/-- The names are in ascending order. -/
theorem pairwise_ofList (xs : List String) : (ofList xs).Pairwise (· < ·) := by
  induction xs with
  | nil => exact .nil
  | cons x xs ih => exact pairwise_insert x ih

end NaturalDeduction.Names
