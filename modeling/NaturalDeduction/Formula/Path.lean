import NaturalDeduction.Formula.Basic

/-! # Paths into formulas

    A path is the list of operand positions to walk from the root, counted
    from 0; the empty path leads to the formula itself. Paths are used to look
    a sub-formula up, to put another formula in its place, and to list all
    sub-formulas.
-/

namespace NaturalDeduction

/-- The operand positions walked from the root of a formula. -/
abbrev Path := List Nat

namespace Formula

/-- The sub-formula that a path leads to. -/
def at? : Formula → Path → Option Formula
  | f, [] => some f
  | .atom _, _ :: _ => none
  | .app _ fs, i :: p =>
    match fs[i]? with
    | some f => f.at? p
    | none => none

/-- The formula with `r` in the place of the sub-formula that a path leads to. -/
def replaceAt? : Formula → Path → Formula → Option Formula
  | _, [], r => some r
  | .atom _, _ :: _, _ => none
  | .app op fs, i :: p, r =>
    match fs[i]? with
    | some f =>
      match f.replaceAt? p r with
      | some f' => some (.app op (fs.set i f'))
      | none => none
    | none => none

mutual
/-- Every sub-formula with its path, a formula before its operands and operands from left to
    right. -/
def subformulas : Formula → List (Path × Formula)
  | .atom s => [([], .atom s)]
  | .app op fs => ([], .app op fs) :: subformulasFrom 0 fs

/-- The sub-formulas of the operands from position `i` on. -/
def subformulasFrom (i : Nat) : List Formula → List (Path × Formula)
  | [] => []
  | f :: fs => f.subformulas.map (fun (p, g) => (i :: p, g)) ++ subformulasFrom (i + 1) fs
end

/-! ### Small facts -/

@[simp] theorem at?_nil (f : Formula) : f.at? [] = some f := by
  cases f <;> rfl

@[simp] theorem replaceAt?_nil (f r : Formula) : f.replaceAt? [] r = some r := by
  cases f <;> rfl

theorem at?_cons (f : Formula) (i : Nat) (p : Path) :
    f.at? (i :: p) = (f.operands[i]?).bind (·.at? p) := by
  cases f with
  | atom s => simp [at?, operands]
  | app op fs =>
    simp only [at?, operands]
    cases fs[i]? <;> rfl

end Formula

end NaturalDeduction
