import Mathlib.Data.List.Nodup
import NaturalDeduction.Formula.Traversal

/-! # The list of all sub-formulas

    The list holds each sub-formula with the path that leads to it, and no path
    twice: paths into different operands differ in their first position.

    * **Order**: the paths are in lexicographic order, and there are as many as
      the formula has nodes.
    * **Stack**: the loop that lists sub-formulas from a stack gives the same
      list. What is on the stack stands for all that is below it, and this
      stays so when operands take the place of a formula (`listFrom_eq`).
-/

namespace NaturalDeduction.Formula

mutual
/-- A sub-formula is listed with exactly the paths that lead to it. -/
theorem mem_subformulas_iff {p : Path} {g : Formula} : (f : Formula) →
    ((p, g) ∈ f.subformulas ↔ f.at? p = some g)
  | .atom s => by
    cases p with
    | nil => simp [subformulas, eq_comm]
    | cons i p => simp [subformulas, at?]
  | .app op fs => by
    rw [subformulas, List.mem_cons, mem_subformulasFrom_iff 0 fs]
    cases p with
    | nil => simp [eq_comm]
    | cons i p =>
      rw [at?_cons, Option.bind_eq_some_iff]
      constructor
      · intro h
        obtain ⟨k, q, operand, hpath, hoperand, hat⟩ := h.resolve_left (by simp)
        obtain ⟨rfl, rfl⟩ := List.cons.inj hpath
        rw [Nat.zero_add]
        exact ⟨operand, hoperand, hat⟩
      · intro h
        obtain ⟨operand, hoperand, hat⟩ := h
        exact .inr ⟨i, p, operand, by rw [Nat.zero_add], hoperand, hat⟩

theorem mem_subformulasFrom_iff {p : Path} {g : Formula} (i : Nat) : (fs : List Formula) →
    ((p, g) ∈ subformulasFrom i fs ↔
      ∃ k q f, p = (i + k) :: q ∧ fs[k]? = some f ∧ f.at? q = some g)
  | [] => by simp [subformulasFrom]
  | f :: fs => by
    have hrest := mem_subformulasFrom_iff (p := p) (g := g) (i + 1) fs
    rw [subformulasFrom, List.mem_append, List.mem_map, hrest]
    constructor
    · rintro (⟨⟨q, g'⟩, hmem, hpath⟩ | ⟨k, q, f', hpath, hfind, hat⟩)
      · obtain ⟨rfl, rfl⟩ := Prod.mk.inj hpath
        exact ⟨0, q, f, rfl, rfl, (mem_subformulas_iff f).mp hmem⟩
      · exact ⟨k + 1, q, f', by rw [hpath, Nat.add_right_comm, Nat.add_assoc], hfind, hat⟩
    · rintro ⟨k, q, f', rfl, hfind, hat⟩
      cases k with
      | zero =>
        -- the first operand
        obtain rfl : f = f' := Option.some.inj hfind
        exact .inl ⟨(q, g), (mem_subformulas_iff f).mpr hat, rfl⟩
      | succ k =>
        exact .inr ⟨k, q, f', by rw [Nat.add_right_comm, Nat.add_assoc], hfind, hat⟩
end

/-- Paths into operands from position `i` on start with a number from `i` on. -/
theorem le_of_mem_subformulasFrom {i j : Nat} {q : Path} {fs : List Formula}
    (h : j :: q ∈ (subformulasFrom i fs).map Prod.fst) : i ≤ j := by
  obtain ⟨⟨p, g⟩, hmem, hpath⟩ := List.mem_map.mp h
  obtain ⟨k, q', f, rfl, -, -⟩ := (mem_subformulasFrom_iff i fs).mp hmem
  obtain ⟨rfl, -⟩ := List.cons.inj hpath
  exact Nat.le_add_right i k

mutual
theorem nodup_subformulas : (f : Formula) → (f.subformulas.map Prod.fst).Nodup
  | .atom s => by simp [subformulas]
  | .app op fs => by
    rw [subformulas, List.map_cons, List.nodup_cons]
    refine ⟨?_, nodup_subformulasFrom 0 fs⟩
    intro hmem
    -- the empty path leads into no operand
    obtain ⟨⟨p, g⟩, hmem, rfl⟩ := List.mem_map.mp hmem
    obtain ⟨k, q, f, hpath, -, -⟩ := (mem_subformulasFrom_iff 0 fs).mp hmem
    cases hpath

theorem nodup_subformulasFrom (i : Nat) : (fs : List Formula) →
    ((subformulasFrom i fs).map Prod.fst).Nodup
  | [] => by simp [subformulasFrom]
  | f :: fs => by
    have hfirst : (f.subformulas.map fun e => i :: e.1).Nodup := by
      have hpaths := (nodup_subformulas f).map (List.cons_injective (a := i))
      rwa [List.map_map] at hpaths
    rw [subformulasFrom, List.map_append, List.map_map, List.nodup_append]
    refine ⟨hfirst, nodup_subformulasFrom (i + 1) fs, ?_⟩
    rintro p hp q hq rfl
    obtain ⟨e, -, rfl⟩ := List.mem_map.mp hp
    have hle : i + 1 ≤ i := le_of_mem_subformulasFrom hq
    omega
end

/-! ### Order -/

mutual
/-- Paths come in lexicographic order: a formula before its operands, operands from left to right. -/
theorem pairwise_subformulas : (f : Formula) →
    (f.subformulas.map Prod.fst).Pairwise (List.Lex (· < ·))
  | .atom s => List.pairwise_singleton _ _
  | .app op fs => by
    rw [subformulas, List.map_cons, List.pairwise_cons]
    refine ⟨?_, pairwise_subformulasFrom 0 fs⟩
    intro q hq
    obtain ⟨⟨p, g⟩, hmem, rfl⟩ := List.mem_map.mp hq
    obtain ⟨k, q, f, rfl, -, -⟩ := (mem_subformulasFrom_iff 0 fs).mp hmem
    exact .nil

theorem pairwise_subformulasFrom (i : Nat) : (fs : List Formula) →
    ((subformulasFrom i fs).map Prod.fst).Pairwise (List.Lex (· < ·))
  | [] => .nil
  | f :: fs => by
    rw [subformulasFrom, List.map_append, List.map_map, List.pairwise_append]
    refine ⟨?_, pairwise_subformulasFrom (i + 1) fs, ?_⟩
    · -- within the first operand all paths start with `i`
      have hfirst := pairwise_subformulas f
      rw [List.pairwise_map] at hfirst ⊢
      exact hfirst.imp fun hlex => .cons hlex
    · intro p hp q hq
      obtain ⟨e, -, rfl⟩ := List.mem_map.mp hp
      obtain ⟨⟨q, g⟩, hmem, rfl⟩ := List.mem_map.mp hq
      obtain ⟨k, q', f', rfl, -, -⟩ := (mem_subformulasFrom_iff (i + 1) fs).mp hmem
      exact .rel (by omega)
end

mutual
theorem length_subformulas : (f : Formula) → f.subformulas.length = f.size
  | .atom s => rfl
  | .app op fs => by
    rw [subformulas, size, List.length_cons, length_subformulasFrom 0 fs, Nat.add_comm]

theorem length_subformulasFrom (i : Nat) : (fs : List Formula) →
    (subformulasFrom i fs).length = sizeAll fs
  | [] => rfl
  | f :: fs => by
    rw [subformulasFrom, sizeAll, List.length_append, List.length_map, length_subformulas f,
      length_subformulasFrom (i + 1) fs]
end

/-! ### Listing from a stack -/

/-- The sub-formulas of the formula at a path, with the paths that lead to them from above. -/
def subformulasBelow (entry : Path × Formula) : List (Path × Formula) :=
  entry.2.subformulas.map fun (p, g) => (entry.1 ++ p, g)

theorem subformulasFrom_eq (i : Nat) (fs : List Formula) :
    subformulasFrom i fs = (fs.zipIdx i).flatMap fun (f, k) => subformulasBelow ([k], f) := by
  induction fs generalizing i with
  | nil => rfl
  | cons f fs ih =>
    rw [subformulasFrom, ih, List.zipIdx_cons, List.flatMap_cons]
    rfl

/-- What is below a formula is the formula itself, and then what is below its operands. -/
theorem subformulasBelow_eq (path : Path) (f : Formula) :
    subformulasBelow (path, f) =
      (path, f) :: (f.operands.zipIdx.map fun (operand, i) => (path ++ [i], operand)).flatMap
        subformulasBelow := by
  have hlist : f.subformulas = ([], f) :: subformulasFrom 0 f.operands := by cases f <;> rfl
  have hpath : ∀ e : Formula × Nat, (subformulasBelow ([e.2], e.1)).map
      (fun (p, g) => (path ++ p, g)) = subformulasBelow (path ++ [e.2], e.1) := by
    intro e
    simp only [subformulasBelow, List.map_map]
    apply List.map_congr_left
    intro entry _
    simp only [Function.comp_apply, List.append_assoc]
  rw [subformulasBelow, hlist, List.map_cons, subformulasFrom_eq, List.map_flatMap,
    List.flatMap_map]
  simp only [hpath, List.append_nil]

/-- **Stack invariant.** The loop lists what is listed already, and then what is below each formula
    on the stack, from the top on. -/
theorem listFrom_eq (listed : Array (Path × Formula)) (stack : List (Path × Formula)) :
    (listFrom listed stack).toList = listed.toList ++ stack.flatMap subformulasBelow := by
  induction listed, stack using listFrom.induct with
  | case1 listed => rw [listFrom, List.flatMap_nil, List.append_nil]
  | case2 listed path f stack ih =>
    rw [listFrom, ih, pushOperands_eq, List.flatMap_append, List.flatMap_cons,
      subformulasBelow_eq, Array.toList_push, List.append_assoc, List.singleton_append,
      List.cons_append]

/-- The loop gives the list of all sub-formulas. -/
theorem listing_eq (f : Formula) : f.listing = f.subformulas := by
  rw [listing, listFrom_eq, List.flatMap_singleton]
  simp only [subformulasBelow, List.nil_append, List.map_id']

end NaturalDeduction.Formula
