import NaturalDeduction.Formula.Basic

/-! # Sequents

    A sequent says that its premises entail its conclusions. A conclusion is
    always a formula. A premise is a form: a formula, or again a sequent, which
    stands for a whole sub-proof. Rules are sequents with schema variables;
    goals are sequents without.
-/

namespace NaturalDeduction

/-- A premise: a formula, or a nested sequent with its own premises and conclusions. -/
inductive Form where
  | formula (f : Formula)
  | sequent (premises : List Form) (conclusions : List Formula)
deriving Repr

/-- Premises that entail conclusions. -/
structure Sequent where
  premises : List Form
  conclusions : List Formula
deriving Repr

namespace Form

/-- The formula of a form that is one. -/
def formula? : Form → Option Formula
  | .formula f => some f
  | .sequent _ _ => none

mutual
/-- The schema variables from left to right, premises before conclusions. -/
def vars : Form → List String
  | .formula f => f.vars
  | .sequent ps cs => varsAll ps ++ Formula.varsAll cs

/-- The schema variables of the forms of a list, from left to right. -/
def varsAll : List Form → List String
  | [] => []
  | p :: ps => p.vars ++ varsAll ps
end

end Form

/-- Texts of premises and conclusions around a turnstile. A side without members leaves no blank. -/
def joinSequent (turnstile : String) (premises conclusions : List String) : String :=
  (if premises.isEmpty then "" else ", ".intercalate premises ++ " ") ++ turnstile ++
    (if conclusions.isEmpty then "" else " " ++ ", ".intercalate conclusions)

mutual
/-- Text that needs no language; a nested sequent stands in brackets. -/
def Form.display : Form → String
  | .formula f => f.display
  | .sequent ps cs =>
    "(" ++ joinSequent "|-" (Form.displayAll ps) (Formula.displayAll cs) ++ ")"

/-- The texts of the forms of a list. -/
def Form.displayAll : List Form → List String
  | [] => []
  | p :: ps => p.display :: Form.displayAll ps
end

namespace Sequent

/-- The sequent as a premise of another one. -/
def toForm (s : Sequent) : Form := .sequent s.premises s.conclusions

/-- The schema variables of the premises, in ascending order. -/
def premiseVariables (s : Sequent) : List String :=
  Names.ofList (Form.varsAll s.premises)

/-- The schema variables that occur in a conclusion and in no premise, in ascending order. Matching
    the premises can never bind them. -/
def conclusionAdditions (s : Sequent) : List String :=
  (Names.ofList (Formula.varsAll s.conclusions)).filter
    fun x => !(Form.varsAll s.premises).contains x

/-- Does the sequent hold no schema variable? -/
def isConcrete (s : Sequent) : Bool := s.toForm.vars.isEmpty

/-- Text that needs no language. -/
def display (s : Sequent) : String :=
  joinSequent "|-" (Form.displayAll s.premises) (Formula.displayAll s.conclusions)

/-- The two sides of an equivalence theorem: a sequent without premises whose only conclusion joins
    two operands by the operator `equivalence`. -/
def sides? (s : Sequent) (equivalence : Option Operator) : Option (Formula × Formula) :=
  match s.premises, s.conclusions with
  | [], [.app op [left, right]] => if some op = equivalence then some (left, right) else none
  | _, _ => none

theorem mem_conclusionAdditions {s : Sequent} {x : String} :
    x ∈ s.conclusionAdditions ↔
      x ∈ Formula.varsAll s.conclusions ∧ x ∉ Form.varsAll s.premises := by
  simp [conclusionAdditions]

end Sequent

end NaturalDeduction
