import NaturalDeduction.AnnotatedText.Draft
import NaturalDeduction.Formula.Path
import NaturalDeduction.Language.Basic

/-! # Writing formulas and sequents

    A formula is written as annotated text. Every sub-formula has a region,
    whose data is its path; the name of an atom and the spelling of an operator
    are dominant, and separators are not. Brackets around an operand are
    written inside the operand's region.

    Brackets are written where reading the text needs them: around an operand
    with an infix operator, and around every operand of a postfix operator that
    is not an atom, since a prefix operator would take the postfix one with it.

    An operator is written with as many operands as its fixity has room for.
    An operand that is missing leaves nothing, and one that is too many is not
    written.
-/

namespace NaturalDeduction

/-- Does an operand need brackets beside an operator of a fixity? -/
def Fixity.needsBrackets (fixity : Fixity) (operand : Formula) : Bool :=
  match fixity with
  | .prefixed => operand.isInfix
  | .postfixed => !operand.isAtomic
  | .infixed => operand.isInfix

/-- The spelling of an operator among the written operands. -/
def Fixity.layout (fixity : Fixity) (spelling : String) (operands : List (List (Edit Path))) :
    List (Edit Path) :=
  let operand := fun i => (operands[i]?).getD []
  match fixity with
  | .prefixed => .appendDominant spelling :: operand 0
  | .postfixed => operand 0 ++ [.appendDominant spelling]
  | .infixed =>
    operand 0 ++ [.append " ", .appendDominant spelling, .append " "] ++ operand 1

/-- The region of a sub-formula, with brackets inside it if it needs them. -/
def regionEdits (brackets : Bool) (path : Path) (body : List (Edit Path)) : List (Edit Path) :=
  .openRegion path ::
    ((if brackets then [.append "("] ++ body ++ [.append ")"] else body) ++ [.closeRegion])

namespace Language

mutual
/-- The edits that write the sub-formula at a path. -/
def formulaEdits (lang : Language) (style : Style) (brackets : Bool) (path : Path) :
    Formula → List (Edit Path)
  | .atom s => regionEdits brackets path [.appendDominant s.name]
  | .app op fs =>
    regionEdits brackets path
      (op.fixity.layout (lang.spelling op style) (operandEdits lang style op.fixity path 0 fs))

/-- The edits that write each of the operands from position `i` on. -/
def operandEdits (lang : Language) (style : Style) (fixity : Fixity) (path : Path) (i : Nat) :
    List Formula → List (List (Edit Path))
  | [] => []
  | f :: fs =>
    formulaEdits lang style (fixity.needsBrackets f) (path ++ [i]) f ::
      operandEdits lang style fixity path (i + 1) fs
end

/-- A formula as text in which every character knows its sub-formula. -/
def render (lang : Language) (f : Formula) (style : Style) :
    Except RegionError (AnnotatedText Path) := do
  (← Draft.empty.applyAll (lang.formulaEdits style false [] f)).finish

/-- A formula as text. -/
def format (lang : Language) (f : Formula) (style : Style) : Except RegionError String := do
  return (← lang.render f style).text

/-- The formulas of a list as texts. -/
def formatAll (lang : Language) (style : Style) : List Formula → Except RegionError (List String)
  | [] => return []
  | f :: fs => return (← lang.format f style) :: (← formatAll lang style fs)

mutual
/-- A premise as text; a nested sequent stands in brackets. -/
def formatForm (lang : Language) (style : Style) : Form → Except RegionError String
  | .formula f => lang.format f style
  | .sequent ps cs => do
    let premises ← formatForms lang style ps
    let conclusions ← lang.formatAll style cs
    return "(" ++ joinSequent (lang.entailment.spelling style) premises conclusions ++ ")"

/-- The premises of a list as texts. -/
def formatForms (lang : Language) (style : Style) : List Form → Except RegionError (List String)
  | [] => return []
  | p :: ps => return (← formatForm lang style p) :: (← formatForms lang style ps)
end

/-- A sequent as text. -/
def formatSequent (lang : Language) (s : Sequent) (style : Style) :
    Except RegionError String := do
  let premises ← lang.formatForms style s.premises
  let conclusions ← lang.formatAll style s.conclusions
  return joinSequent (lang.entailment.spelling style) premises conclusions

end Language

end NaturalDeduction
