import NaturalDeduction.Formula.Path

/-! # Listing sub-formulas from a stack

    All sub-formulas can also be listed in a loop. Those that are still to be
    listed wait on a stack, each with its path. The one on top is listed, and
    its operands take its place. They are put on the stack from the last one to
    the first, so that the first operand is on top.
-/

namespace NaturalDeduction.Formula

/-- Puts the operands of the sub-formula at a path on a stack, with their paths. -/
def pushOperands (path : Path) (f : Formula) (stack : List (Path × Formula)) :
    List (Path × Formula) :=
  f.operands.zipIdx.foldr (fun (operand, i) stack => (path ++ [i], operand) :: stack) stack

theorem pushOperands_eq (path : Path) (f : Formula) (stack : List (Path × Formula)) :
    pushOperands path f stack =
      f.operands.zipIdx.map (fun (operand, i) => (path ++ [i], operand)) ++ stack := by
  unfold pushOperands
  induction f.operands.zipIdx with
  | nil => rfl
  | cons e rest ih => rw [List.foldr_cons, ih, List.map_cons, List.cons_append]

/-- The operands take the place of a formula, which has one node more than they have. -/
theorem sizeAll_pushOperands (path : Path) (f : Formula) (stack : List (Path × Formula)) :
    sizeAll ((pushOperands path f stack).map Prod.snd) + 1 =
      f.size + sizeAll (stack.map Prod.snd) := by
  have hoperands : (f.operands.zipIdx.map fun (operand, i) => (path ++ [i], operand)).map
      Prod.snd = f.operands := by
    rw [List.map_map]
    exact List.zipIdx_map_fst 0 f.operands
  rw [pushOperands_eq, List.map_append, hoperands, sizeAll_append, size_eq]
  omega

/-- Lists what is on a stack and all that is below it, after what is listed already. -/
def listFrom (listed : Array (Path × Formula)) : List (Path × Formula) → Array (Path × Formula)
  | [] => listed
  | (path, f) :: stack => listFrom (listed.push (path, f)) (pushOperands path f stack)
termination_by stack => sizeAll (stack.map Prod.snd)
decreasing_by
  have hsize := sizeAll_pushOperands path f stack
  simp only [List.map_cons, sizeAll]
  omega

/-- Every sub-formula with its path, in the order in which they come from the stack. -/
def listing (f : Formula) : List (Path × Formula) := (listFrom #[] [([], f)]).toList

end NaturalDeduction.Formula
