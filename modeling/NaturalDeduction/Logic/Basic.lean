import NaturalDeduction.Error
import NaturalDeduction.Parsing

/-! # Logics

    A logic is a language with a calculus. It can be given as a table of rules
    in which each template is written in the language.
-/

namespace NaturalDeduction

/-- A language with a calculus. -/
structure Logic where
  language : Language
  calculus : Calculus

/-- A rule with its template as text. -/
structure RuleEntry where
  name : String
  abbreviation : String
  template : String
deriving Repr

namespace Logic

/-- Reads the templates of a table of rules. -/
def readRules (language : Language) : List RuleEntry → Except SyntaxError (List Rule)
  | [] => .ok []
  | entry :: entries =>
    match language.parseSequent .schema entry.template with
    | .error e => .error e
    | .ok sequent =>
      match readRules language entries with
      | .error e => .error e
      | .ok rules => .ok (⟨entry.name, entry.abbreviation, sequent, none⟩ :: rules)

/-- The logic of a table of rules. Its rules of replacement are stated by the language's
    operator for equivalence. -/
def ofTable (language : Language) (table : List RuleEntry) (roles : Roles) (config : Config) :
    Except Error Logic := do
  let rules ← (readRules language table).mapError Error.unreadable
  let calculus ← (Calculus.ofRules rules roles language.equivalence config).mapError Error.calculus
  return { language, calculus }

end Logic

end NaturalDeduction
