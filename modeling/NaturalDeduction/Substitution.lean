import NaturalDeduction.Formula.Basic

/-! # Substitutions

    A substitution binds names of schema variables to formulas. It remembers
    the order in which the names were first bound, and no name is bound twice.
    Two substitutions count as equal (`==`) when they bind the same names to
    the same formulas, in whatever order.
-/

namespace NaturalDeduction

section Entries

variable {α : Type}

/-- Binds `name` in a list of entries: in its place if it is bound there, else at the end. -/
def insertEntry (name : String) (a : α) : List (String × α) → List (String × α)
  | [] => [(name, a)]
  | (x, b) :: rest => if x = name then (x, a) :: rest else (x, b) :: insertEntry name a rest

theorem keys_insertEntry (name : String) (a : α) (entries : List (String × α)) :
    (insertEntry name a entries).map Prod.fst =
      if name ∈ entries.map Prod.fst then entries.map Prod.fst
      else entries.map Prod.fst ++ [name] := by
  induction entries with
  | nil => simp [insertEntry]
  | cons e rest ih =>
    obtain ⟨x, b⟩ := e
    by_cases hx : x = name
    · simp [insertEntry, hx]
    · have hx' : ¬ name = x := fun h => hx h.symm
      simp only [insertEntry, hx, if_false, List.map_cons, ih, List.mem_cons, hx', false_or]
      split <;> simp

theorem nodup_insertEntry (name : String) (a : α) {entries : List (String × α)}
    (h : (entries.map Prod.fst).Nodup) : ((insertEntry name a entries).map Prod.fst).Nodup := by
  rw [keys_insertEntry]
  split
  · exact h
  · rename_i hn
    rw [List.nodup_append]
    refine ⟨h, by simp, ?_⟩
    intro x hx y hy hxy
    simp only [List.mem_singleton] at hy
    exact hn (hy ▸ hxy ▸ hx)

theorem lookup_insertEntry (name x : String) (a : α) (entries : List (String × α)) :
    (insertEntry name a entries).lookup x = if x = name then some a else entries.lookup x := by
  induction entries with
  | nil =>
    by_cases hx : x = name
    · simp [insertEntry, hx]
    · have hb : (x == name) = false := by simpa using hx
      simp [insertEntry, List.lookup_cons, hb, hx]
  | cons e rest ih =>
    obtain ⟨y, b⟩ := e
    by_cases hx : x = y
    · subst hx
      by_cases hy : x = name <;> simp [insertEntry, hy]
    · have hb : (x == y) = false := by simpa using hx
      by_cases hy : y = name
      · subst hy
        simp [insertEntry, List.lookup_cons, hb, hx]
      · simp [insertEntry, List.lookup_cons, hb, hy, ih]

end Entries

/-- Formulas bound to names, in binding order. -/
structure Substitution where
  entries : List (String × Formula)
  /-- No name is bound twice. -/
  nodup : (entries.map Prod.fst).Nodup

namespace Substitution

/-- Binds nothing. -/
def empty : Substitution := ⟨[], List.nodup_nil⟩

instance : Inhabited Substitution := ⟨empty⟩

/-- Binds `name` to `f`, in place of what it was bound to. -/
def insert (σ : Substitution) (name : String) (f : Formula) : Substitution :=
  ⟨insertEntry name f σ.entries, nodup_insertEntry name f σ.nodup⟩

/-- The bindings of a list, one after the other. -/
def ofList (bindings : List (String × Formula)) : Substitution :=
  bindings.foldl (fun σ (name, f) => σ.insert name f) empty

/-- The formula bound to a name. -/
def get? (σ : Substitution) (name : String) : Option Formula :=
  σ.entries.lookup name

/-- Is the name bound? -/
def contains (σ : Substitution) (name : String) : Bool :=
  (σ.get? name).isSome

/-- The number of names that are bound. -/
def size (σ : Substitution) : Nat := σ.entries.length

/-- Adds the bindings of `τ` for names that `σ` does not bind. -/
def merge (σ τ : Substitution) : Substitution :=
  τ.entries.foldl (fun ρ (name, f) => if ρ.contains name then ρ else ρ.insert name f) σ

mutual
/-- Puts the bound formulas in the place of their schema variables; other variables stay. -/
def apply (σ : Substitution) : Formula → Formula
  | .atom s => if s.kind = .schema then (σ.get? s.name).getD (.atom s) else .atom s
  | .app op fs => .app op (applyAll σ fs)

/-- Applies a substitution to the formulas of a list. -/
def applyAll (σ : Substitution) : List Formula → List Formula
  | [] => []
  | f :: fs => apply σ f :: applyAll σ fs
end

/-- Text of the form `{P -> A, Q -> B}`. -/
def display (σ : Substitution) : String :=
  "\x7b" ++ ", ".intercalate (σ.entries.map fun (name, f) => name ++ " -> " ++ f.display) ++ "\x7d"

instance : ToString Substitution := ⟨display⟩

/-- Equality as maps: the order of the bindings does not count. -/
instance : BEq Substitution :=
  ⟨fun σ τ => σ.size == τ.size && σ.entries.all fun (name, f) => τ.get? name == some f⟩

/-! ### Small facts -/

theorem applyAll_eq (σ : Substitution) (fs : List Formula) : σ.applyAll fs = fs.map σ.apply := by
  induction fs with
  | nil => rfl
  | cons f fs ih => simp [applyAll, ih]

theorem get?_insert (σ : Substitution) (name x : String) (f : Formula) :
    (σ.insert name f).get? x = if x = name then some f else σ.get? x :=
  lookup_insertEntry name x f σ.entries

@[simp] theorem get?_empty (x : String) : empty.get? x = none := rfl

theorem contains_iff (σ : Substitution) (x : String) :
    σ.contains x = true ↔ ∃ f, σ.get? x = some f := by
  simp [contains, Option.isSome_iff_exists]

theorem not_contains_iff (σ : Substitution) (x : String) :
    ¬ σ.contains x = true ↔ σ.get? x = none := by
  simp [contains]

end Substitution

end NaturalDeduction
