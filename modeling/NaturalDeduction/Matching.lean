import NaturalDeduction.Sequent
import NaturalDeduction.Substitution

/-! # Matching templates

    A template is matched against a form one way: only schema variables of the
    template are bound. Matching extends a substitution that it is given, from
    left to right, and returns it with the outcome; after a failure the
    substitution holds what was bound up to there.

    Premise lists are matched in any order. Each template takes the first form
    not yet taken that lets the rest be matched too, so that the result is that
    of the lexicographically first assignment of forms to templates. Flags say
    which forms are taken; a flag is cleared again when the rest comes to
    nothing.
-/

namespace NaturalDeduction

/-- Why forms do not match templates. -/
inductive MatchError where
  | arity (expected found : Nat)
  | noMapping
deriving DecidableEq, Repr

/-- The wording of a failed match. -/
def MatchError.message : MatchError → String
  | .arity expected found => s!"{expected} premise(s) required, {found} supplied"
  | .noMapping => "no consistent mapping of the rule onto the supplied premises"

mutual
/-- Matches a template with a formula. A schema variable that is bound must stand for the formula
    it is bound to; all else must agree literally. -/
def Formula.matchWith : Formula → Formula → Substitution → Bool × Substitution
  | .atom s, f, σ =>
    if s.kind = .schema then
      match σ.get? s.name with
      | some g => (decide (g = f), σ)
      | none => (true, σ.insert s.name f)
    else (decide (.atom s = f), σ)
  | .app op ts, .app op' fs, σ =>
    if op = op' ∧ ts.length = fs.length then Formula.matchAllWith ts fs σ else (false, σ)
  | .app _ _, .atom _, σ => (false, σ)

/-- Matches templates with formulas one by one and stops at the first failure. -/
def Formula.matchAllWith : List Formula → List Formula → Substitution → Bool × Substitution
  | [], [], σ => (true, σ)
  | t :: ts, f :: fs, σ =>
    match t.matchWith f σ with
    | (true, τ) => Formula.matchAllWith ts fs τ
    | (false, τ) => (false, τ)
  | _, _, σ => (false, σ)
end

mutual
/-- Matches a template with a form. Nested sequents are matched position by position, premises
    first. -/
def Form.matchWith : Form → Form → Substitution → Bool × Substitution
  | .formula t, .formula f, σ => t.matchWith f σ
  | .sequent ps cs, .sequent qs ds, σ =>
    if ps.length = qs.length ∧ cs.length = ds.length then
      match Form.matchAllWith ps qs σ with
      | (true, τ) => Formula.matchAllWith cs ds τ
      | (false, τ) => (false, τ)
    else (false, σ)
  | _, _, σ => (false, σ)

/-- Matches templates with forms one by one and stops at the first failure. -/
def Form.matchAllWith : List Form → List Form → Substitution → Bool × Substitution
  | [], [], σ => (true, σ)
  | t :: ts, f :: fs, σ =>
    match t.matchWith f σ with
    | (true, τ) => Form.matchAllWith ts fs τ
    | (false, τ) => (false, τ)
  | _, _, σ => (false, σ)
end

/-- Gives a template one of the forms, which are tried in turn with their numbers, and searches on with
    the rest of the templates. Forms that are used are passed over. A form counts as used while the
    search goes on, and no longer if that comes to nothing. -/
def Form.searchFrom (rest : List Bool → Substitution → Option Substitution × List Bool)
    (t : Form) (σ : Substitution) :
    List (Form × Nat) → List Bool → Option Substitution × List Bool
  | [], used => (none, used)
  | (f, j) :: forms, used =>
    if used[j]? = some false then
      match t.matchWith f σ with
      | (true, τ) =>
        match rest (used.set j true) τ with
        | (some found, used') => (some found, used')
        | (none, used') => Form.searchFrom rest t σ forms (used'.set j false)
      | (false, _) => Form.searchFrom rest t σ forms used
    else Form.searchFrom rest t σ forms used

/-- Gives each template in turn one of the forms that are not used yet and goes back when the rest
    cannot be matched. What is used is kept in one list of flags, which is returned as the search
    leaves it. -/
def Form.search (forms : List Form) :
    List Form → List Bool → Substitution → Option Substitution × List Bool
  | [], used, σ => (some σ, used)
  | t :: ts, used, σ => Form.searchFrom (Form.search forms ts) t σ forms.zipIdx used

/-- Matches templates with as many forms in any order, extending `seed`. -/
def Form.matchInAnyOrder (templates forms : List Form) (seed : Substitution) :
    Except MatchError Substitution :=
  if templates.length = forms.length then
    match (Form.search forms templates (List.replicate forms.length false) seed).1 with
    | some σ => .ok σ
    | none => .error .noMapping
  else .error (.arity templates.length forms.length)

end NaturalDeduction
