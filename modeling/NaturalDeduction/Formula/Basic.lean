import NaturalDeduction.Names

/-! # Formulas

    A formula is an atom or an operator applied to a list of operands. Atoms
    of rule templates are schema variables, to be replaced by matching; atoms
    of derivations are propositions. An operator is known by its name and its
    place among the operands, never by a spelling, so that all spellings of a
    language give equal formulas.

    Nothing here asks that an operator has as many operands as its fixity
    needs: a formula built by hand may have any number.
-/

namespace NaturalDeduction

/-- What an atom stands for. -/
inductive SymbolKind where
  /-- A placeholder of a rule template. -/
  | schema
  /-- A named proposition. -/
  | proposition
deriving DecidableEq, Repr

/-- The name in an atom, with what it stands for. -/
structure Symbol where
  name : String
  kind : SymbolKind
deriving DecidableEq, Repr

/-- Where an operator stands among its operands. -/
inductive Fixity where
  | prefixed
  | postfixed
  | infixed
deriving DecidableEq, Repr

/-- The number of operands that a fixity has room for. -/
def Fixity.arity : Fixity → Nat
  | .prefixed => 1
  | .postfixed => 1
  | .infixed => 2

/-- An operator: its name and where it stands. -/
structure Operator where
  name : String
  fixity : Fixity
deriving DecidableEq, Repr

/-- A formula: an atom, or an operator with its operands. -/
inductive Formula where
  | atom (symbol : Symbol)
  | app (op : Operator) (operands : List Formula)
deriving Repr

namespace Formula

/-- The proposition called `name`. -/
def proposition (name : String) : Formula := .atom ⟨name, .proposition⟩

/-- The schema variable called `name`. -/
def schema (name : String) : Formula := .atom ⟨name, .schema⟩

/-! ### Equality -/

mutual
/-- Decides whether two formulas are equal. -/
def decEq : (f g : Formula) → Decidable (f = g)
  | .atom s, .atom t =>
    if h : s = t then isTrue (congrArg atom h) else isFalse fun e => h (Formula.atom.inj e)
  | .atom _, .app _ _ => isFalse nofun
  | .app _ _, .atom _ => isFalse nofun
  | .app op fs, .app op' gs =>
    if h : op = op' then
      match decEqAll fs gs with
      | isTrue h' => isTrue (by rw [h, h'])
      | isFalse h' => isFalse fun e => h' (Formula.app.inj e).2
    else isFalse fun e => h (Formula.app.inj e).1

/-- Decides whether two lists of formulas are equal. -/
def decEqAll : (fs gs : List Formula) → Decidable (fs = gs)
  | [], [] => isTrue rfl
  | [], _ :: _ => isFalse nofun
  | _ :: _, [] => isFalse nofun
  | f :: fs, g :: gs =>
    match decEq f g, decEqAll fs gs with
    | isTrue h, isTrue h' => isTrue (by rw [h, h'])
    | isFalse h, _ => isFalse fun e => h (List.cons.inj e).1
    | _, isFalse h => isFalse fun e => h (List.cons.inj e).2
end

instance : DecidableEq Formula := decEq

/-! ### Parts -/

/-- Is the formula an atom? -/
def isAtomic : Formula → Bool
  | .atom _ => true
  | .app _ _ => false

/-- The principal operator, if there is one. -/
def operator? : Formula → Option Operator
  | .atom _ => none
  | .app op _ => some op

/-- The immediate sub-formulas; an atom has none. -/
def operands : Formula → List Formula
  | .atom _ => []
  | .app _ fs => fs

/-- Is the principal operator an infix one? -/
def isInfix (f : Formula) : Bool :=
  f.operator?.any (·.fixity == .infixed)

/-! ### Size and schema variables -/

mutual
/-- The number of nodes of the tree. -/
def size : Formula → Nat
  | .atom _ => 1
  | .app _ fs => 1 + sizeAll fs

/-- The number of nodes of the trees of a list. -/
def sizeAll : List Formula → Nat
  | [] => 0
  | f :: fs => f.size + sizeAll fs
end

mutual
/-- The schema variables from left to right, one entry for each occurrence. -/
def vars : Formula → List String
  | .atom s => if s.kind = .schema then [s.name] else []
  | .app _ fs => varsAll fs

/-- The schema variables of the formulas of a list, from left to right. -/
def varsAll : List Formula → List String
  | [] => []
  | f :: fs => f.vars ++ varsAll fs
end

/-- The schema variables in ascending order, each once. -/
def schemaVariables (f : Formula) : List String := Names.ofList f.vars

mutual
/-- Does the formula hold no schema variable? -/
def isConcrete : Formula → Bool
  | .atom s => s.kind != .schema
  | .app _ fs => isConcreteAll fs

/-- Do the formulas of a list hold no schema variable? -/
def isConcreteAll : List Formula → Bool
  | [] => true
  | f :: fs => f.isConcrete && isConcreteAll fs
end

/-! ### Plain text -/

mutual
/-- Text that needs no language: `Name(operand, …)` for an operator and its operands, the bare
    name for an atom. -/
def display : Formula → String
  | .atom s => s.name
  | .app op fs => op.name ++ "(" ++ ", ".intercalate (displayAll fs) ++ ")"

/-- The texts of the formulas of a list. -/
def displayAll : List Formula → List String
  | [] => []
  | f :: fs => f.display :: displayAll fs
end

instance : ToString Formula := ⟨display⟩

/-! ### Small facts -/

theorem varsAll_eq (fs : List Formula) : varsAll fs = fs.flatMap vars := by
  induction fs with
  | nil => rfl
  | cons f fs ih => simp [varsAll, ih]

theorem sizeAll_eq (fs : List Formula) : sizeAll fs = (fs.map size).foldr (· + ·) 0 := by
  induction fs with
  | nil => rfl
  | cons f fs ih => simp [sizeAll, ih]

theorem size_pos (f : Formula) : 0 < f.size := by
  cases f with
  | atom => simp [size]
  | app op fs =>
    rw [size]
    omega

theorem sizeAll_append (fs gs : List Formula) : sizeAll (fs ++ gs) = sizeAll fs + sizeAll gs := by
  induction fs with
  | nil => simp [sizeAll]
  | cons f fs ih =>
    rw [List.cons_append, sizeAll, sizeAll, ih]
    omega

theorem size_eq (f : Formula) : f.size = 1 + sizeAll f.operands := by
  cases f <;> rfl

theorem displayAll_eq (fs : List Formula) : displayAll fs = fs.map display := by
  induction fs with
  | nil => rfl
  | cons f fs ih => simp [displayAll, ih]

mutual
/-- A formula is concrete exactly when no schema variable occurs in it. -/
theorem isConcrete_iff : (f : Formula) → (f.isConcrete = true ↔ f.vars = [])
  | .atom s => by
    simp only [isConcrete, vars, bne_iff_ne, ne_eq]
    split <;> simp [*]
  | .app _ fs => by
    simp only [isConcrete, vars]
    exact isConcreteAll_iff fs

/-- The formulas of a list are concrete exactly when no schema variable occurs in them. -/
theorem isConcreteAll_iff : (fs : List Formula) → (isConcreteAll fs = true ↔ varsAll fs = [])
  | [] => by simp [isConcreteAll, varsAll]
  | f :: fs => by
    simp only [isConcreteAll, varsAll, Bool.and_eq_true, List.append_eq_nil_iff,
      isConcrete_iff f, isConcreteAll_iff fs]
end

end Formula

end NaturalDeduction
