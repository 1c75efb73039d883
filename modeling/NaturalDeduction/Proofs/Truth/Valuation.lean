import NaturalDeduction.Proofs.Formula.Path
import NaturalDeduction.Proofs.Matching

/-! # Truth

    A valuation makes each formula true or false. It is free in what atoms and
    operators mean, but for the five connectives with the number of operands
    that they have room for: these it reads classically. A sequent holds if
    its conclusions are true whenever its premises hold; it is valid if it
    holds under all valuations.

    Two facts carry all reasoning about truth. The instance of a template is
    as true as the template under a valuation that gives schema variables the
    truth of what they are bound to (`eval_apply`), so that all instances of a
    valid sequent hold. And a formula keeps its truth if a part of it is
    replaced by one that is equally true (`eval_replaceAt?`).
-/

namespace NaturalDeduction

/-- What a connective makes of the truth of its operands, if there are as many as it has room for. -/
def Operator.classical? (op : Operator) (operands : List Bool) : Option Bool :=
  match op, operands with
  | ⟨"Negation", .prefixed⟩, [a] => some !a
  | ⟨"Conjunction", .infixed⟩, [a, b] => some (a && b)
  | ⟨"Disjunction", .infixed⟩, [a, b] => some (a || b)
  | ⟨"Conditional", .infixed⟩, [a, b] => some (!a || b)
  | ⟨"Biconditional", .infixed⟩, [a, b] => some (a == b)
  | _, _ => none

/-- A meaning for atoms and operators that reads the connectives classically. -/
structure Valuation where
  atom : Symbol → Bool
  operator : Operator → List Bool → Bool
  operator_eq : ∀ op operands b, op.classical? operands = some b → operator op operands = b

namespace Valuation

/-- The valuation with given true atoms in which nothing is true by an operator other than a
    connective. -/
def ofAtoms (atom : Symbol → Bool) : Valuation where
  atom := atom
  operator op operands := (op.classical? operands).getD false
  operator_eq op operands b h := by rw [h, Option.getD_some]

/-! ### Formulas and forms -/

mutual
/-- Is the formula true? -/
def eval (V : Valuation) : Formula → Bool
  | .atom s => V.atom s
  | .app op fs => V.operator op (evalAll V fs)

/-- The truth of the formulas of a list. -/
def evalAll (V : Valuation) : List Formula → List Bool
  | [] => []
  | f :: fs => eval V f :: evalAll V fs
end

theorem evalAll_eq (V : Valuation) (fs : List Formula) : V.evalAll fs = fs.map V.eval := by
  induction fs with
  | nil => rfl
  | cons f fs ih => rw [evalAll, ih, List.map_cons]

mutual
/-- A formula holds if it is true, a sequent if its conclusions are true in case its premises
    hold. -/
def Holds (V : Valuation) : Form → Prop
  | .formula f => V.eval f = true
  | .sequent ps cs => HoldAll V ps → ∀ c ∈ cs, V.eval c = true

/-- All forms of a list hold. -/
def HoldAll (V : Valuation) : List Form → Prop
  | [] => True
  | p :: ps => Holds V p ∧ HoldAll V ps
end

theorem holdAll_iff (V : Valuation) (ps : List Form) :
    V.HoldAll ps ↔ ∀ p ∈ ps, V.Holds p := by
  induction ps with
  | nil => simp [HoldAll]
  | cons p ps ih => rw [HoldAll, ih, List.forall_mem_cons]

/-! ### Instances -/

/-- The valuation that gives a schema variable the truth of what it is bound to. -/
def under (V : Valuation) (σ : Substitution) : Valuation :=
  { V with atom := fun s => V.eval (σ.apply (.atom s)) }

variable {V : Valuation} {σ : Substitution}

mutual
/-- Truth of an instance is truth of the template, with variables read as what they are bound to. -/
theorem eval_apply : (t : Formula) → V.eval (σ.apply t) = (V.under σ).eval t
  | .atom _ => rfl
  | .app op ts => by
    rw [Substitution.apply, eval, eval, evalAll_applyAll ts]
    rfl

/-- The same for the formulas of a list. -/
theorem evalAll_applyAll :
    (ts : List Formula) → V.evalAll (σ.applyAll ts) = (V.under σ).evalAll ts
  | [] => rfl
  | t :: ts => by
    rw [Substitution.applyAll, evalAll, evalAll, eval_apply t, evalAll_applyAll ts]
end

mutual
/-- An instance of a form holds if the form does, with variables read as what they are bound to. -/
theorem holds_applyForm : (p : Form) → (V.Holds (σ.applyForm p) ↔ (V.under σ).Holds p)
  | .formula f => by
    rw [Substitution.applyForm, Holds, Holds, eval_apply]
  | .sequent ps cs => by
    rw [Substitution.applyForm, Holds, Holds, holdAll_applyForms ps, Substitution.applyAll_eq]
    simp only [List.forall_mem_map, eval_apply]

/-- The same for the forms of a list. -/
theorem holdAll_applyForms :
    (ps : List Form) → (V.HoldAll (σ.applyForms ps) ↔ (V.under σ).HoldAll ps)
  | [] => Iff.rfl
  | p :: ps => by
    rw [Substitution.applyForms, HoldAll, HoldAll, holds_applyForm p, holdAll_applyForms ps]
end

/-! ### Replacement -/

/-- To be equally true is a congruence. -/
theorem congruence_eval (V : Valuation) : Formula.Congruence fun f g => V.eval f = V.eval g where
  equivalence := ⟨fun _ => rfl, fun h => h.symm, fun h h' => h.trans h'⟩
  app := by
    intro op fs gs h
    have hmap : fs.map V.eval = gs.map V.eval := by
      rw [← List.forall₂_eq_eq_eq, List.forall₂_map_left_iff, List.forall₂_map_right_iff]
      exact h
    rw [eval, eval, evalAll_eq, evalAll_eq, hmap]

/-- A part may be replaced by one that is equally true. -/
theorem eval_replaceAt? {f g selected r : Formula} {p : Path} (hat : f.at? p = some selected)
    (heq : V.eval r = V.eval selected) (hreplace : f.replaceAt? p r = some g) :
    V.eval g = V.eval f := by
  obtain ⟨g', hg', hreplaced⟩ := Formula.exists_replaced hat r
  obtain rfl : g' = g := Option.some.inj (hg'.symm.trans hreplace)
  exact (hreplaced.related V.congruence_eval heq.symm).symm

end Valuation

/-! ### Valid sequents -/

/-- The sequent holds under all valuations. -/
def Sequent.Valid (s : Sequent) : Prop := ∀ V : Valuation, V.Holds s.toForm

namespace Sequent.Valid

variable {s : Sequent} {V : Valuation} {σ : Substitution}

/-- The conclusions of an instance are true if the premises of the instance hold. -/
theorem eval_apply (h : s.Valid) (hpremises : ∀ p ∈ s.premises, V.Holds (σ.applyForm p))
    {c : Formula} (hc : c ∈ s.conclusions) : V.eval (σ.apply c) = true := by
  rw [Valuation.eval_apply]
  refine h (V.under σ) ?_ c hc
  rw [Valuation.holdAll_iff]
  intro p hp
  exact Valuation.holds_applyForm p |>.mp (hpremises p hp)

/-- The sides of a valid equivalence have instances that are equally true. -/
theorem eval_sides {equivalence : Operator} {left right : Formula} (h : s.Valid)
    (hop : ∀ a b, equivalence.classical? [a, b] = some (a == b))
    (hsides : s.sides? (some equivalence) = some (left, right)) :
    V.eval (σ.apply left) = V.eval (σ.apply right) := by
  unfold Sequent.sides? at hsides
  split at hsides
  · next op left' right' hpremises hconclusions =>
    split at hsides
    · next heq =>
      cases heq
      cases hsides
      -- the equivalence has no premises, so that all of its instances are true
      have htrue : V.eval (σ.apply (.app equivalence [left, right])) = true := by
        refine h.eval_apply ?_ ?_
        · rw [hpremises]
          intro p hp
          cases hp
        · rw [hconclusions]
          exact List.mem_singleton_self _
      rw [Substitution.apply, Valuation.eval] at htrue
      simp only [Substitution.applyAll, Valuation.evalAll] at htrue
      rw [V.operator_eq _ _ _ (hop _ _)] at htrue
      exact eq_of_beq htrue
    · cases hsides
  · cases hsides

end Sequent.Valid

end NaturalDeduction
