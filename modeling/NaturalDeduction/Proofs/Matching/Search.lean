import NaturalDeduction.Matching

/-! # Searching without flags

    The search for an assignment keeps flags for the forms that are used. It can
    be said without them: a template takes one of the forms that remain, and the
    templates after it search among the others (`assign`).

    The two agree because a search that comes to nothing leaves the flags as it
    found them. So the forms that are free when the next one is tried are those
    that were free before (`search_spec`).
-/

namespace NaturalDeduction

/-- Every way to take one member out of a list, first members first, with the list that remains. -/
def picks {α : Type} : List α → List (α × List α)
  | [] => []
  | x :: xs => (x, xs) :: (picks xs).map fun (y, ys) => (y, x :: ys)

/-- The members of a list that are not flagged as used. -/
def free {α : Type} : List α → List Bool → List α
  | x :: xs, used :: flags => if used then free xs flags else x :: free xs flags
  | _, _ => []

section Flags

variable {flags : List Bool} {n : Nat}

theorem getElem?_flag (h : flags.length = n) (flag : Bool) (flags' : List Bool) :
    (flags ++ flag :: flags')[n]? = some flag := by
  rw [← h, List.getElem?_append_right (Nat.le_refl _), Nat.sub_self, List.getElem?_cons_zero]

theorem set_flag (h : flags.length = n) (flag flag' : Bool) (flags' : List Bool) :
    (flags ++ flag :: flags').set n flag' = flags ++ flag' :: flags' := by
  rw [← h, List.set_append_right _ _ (Nat.le_refl _), Nat.sub_self, List.set_cons_zero]

end Flags

theorem free_append {α : Type} {front : List α} {flags : List Bool}
    (h : flags.length = front.length) (back : List α) (flags' : List Bool) :
    free (front ++ back) (flags ++ flags') = free front flags ++ free back flags' := by
  induction front generalizing flags with
  | nil =>
    obtain rfl := List.length_eq_zero_iff.mp h
    rfl
  | cons x xs ih =>
    obtain ⟨used, flags, rfl⟩ := List.exists_cons_of_length_eq_add_one h
    have hrest := ih (Nat.succ.inj h)
    cases used with
    | true => exact hrest
    | false => exact congrArg (x :: ·) hrest

theorem free_replicate {α : Type} (xs : List α) : free xs (List.replicate xs.length false) = xs := by
  induction xs with
  | nil => rfl
  | cons x xs ih => exact congrArg (x :: ·) ih

namespace Form

/-- Gives each template in turn one of the remaining forms and goes back when the rest cannot be
    matched. -/
def assign : List Form → List Form → Substitution → Option Substitution
  | [], _, σ => some σ
  | t :: ts, fs, σ =>
    (picks fs).findSome? fun (f, rest) =>
      match t.matchWith f σ with
      | (true, τ) => assign ts rest τ
      | (false, _) => none

/-- Gives a template a form that is picked after some that remain, and the others what remains. -/
def assignPick (ts : List Form) (t : Form) (σ : Substitution) (before : List Form)
    (pick : Form × List Form) : Option Substitution :=
  match t.matchWith pick.1 σ with
  | (true, τ) => assign ts (before ++ pick.2) τ
  | (false, _) => none

variable {ts : List Form} {t : Form} {σ : Substitution}

/-- A later form is picked from those after the first one, with the first one before it. -/
theorem findSome?_picks_cons (before rest : List Form) (f : Form) :
    (picks (f :: rest)).findSome? (assignPick ts t σ before) =
      (assignPick ts t σ before (f, rest)).or
        ((picks rest).findSome? (assignPick ts t σ (before ++ [f]))) := by
  have hlater : assignPick ts t σ before ∘ (fun pick => (pick.1, f :: pick.2)) =
      assignPick ts t σ (before ++ [f]) := by
    funext pick
    simp only [Function.comp_apply, assignPick, List.append_assoc, List.singleton_append]
  rw [← hlater, ← List.findSome?_map]
  show ((f, rest) :: _).findSome? _ = _
  rw [List.findSome?_cons]
  cases assignPick ts t σ before (f, rest) <;> rfl

/-- A search finds an assignment if there is one, and else leaves the flags as they were. -/
def Finds (r : Option Substitution × List Bool) (found : Option Substitution) (used : List Bool) :
    Prop :=
  r.1 = found ∧ (found = none → r.2 = used)

/-- Where a search comes to nothing, the next one goes on with the flags as they were. -/
theorem Finds.or {r : Option Substitution × List Bool} {found later : Option Substitution}
    {used used' : List Bool} {next : List Bool → Option Substitution × List Bool} :
    Finds r found used' → Finds (next used') later used →
      Finds
        (match r with
          | (some result, flags) => (some result, flags)
          | (none, flags) => next flags)
        (found.or later) used := by
  intro h hnext
  obtain ⟨result, flags⟩ := r
  obtain ⟨hresult, hrestored⟩ := h
  dsimp only at hresult hrestored
  subst hresult
  cases result with
  | some found => exact ⟨rfl, nofun⟩
  | none =>
    obtain rfl := hrestored rfl
    exact hnext

/-- From any place on, the forms that are free are tried in turn, each with all others that are free.
    What is free before that place is not tried again. -/
theorem searchFrom_spec (front back : List Form) (flags flags' : List Bool)
    (h : ∀ used τ, used.length = (front ++ back).length →
      Finds (search (front ++ back) ts used τ) (assign ts (free (front ++ back) used) τ) used)
    (hflags : flags.length = front.length) (hflags' : flags'.length = back.length) :
    Finds (searchFrom (search (front ++ back) ts) t σ (back.zipIdx front.length) (flags ++ flags'))
      ((picks (free back flags')).findSome? (assignPick ts t σ (free front flags)))
      (flags ++ flags') := by
  induction back generalizing front flags flags' with
  | nil =>
    obtain rfl := List.length_eq_zero_iff.mp hflags'
    exact ⟨rfl, fun _ => rfl⟩
  | cons f back ih =>
    obtain ⟨used, flags', rfl⟩ := List.exists_cons_of_length_eq_add_one hflags'
    have hback : flags'.length = back.length := Nat.succ.inj hflags'
    -- the forms after `f` are tried with `f` among those before them
    have hlater := ih (front ++ [f]) (flags ++ [used]) flags' (by simpa using h) (by simp [hflags])
      hback
    rw [List.append_assoc, List.append_assoc, List.length_append, List.singleton_append,
      List.singleton_append, List.length_singleton, free_append hflags] at hlater
    rw [List.zipIdx_cons, searchFrom, getElem?_flag hflags]
    cases used with
    | true =>
      rw [if_neg (by decide)]
      have hfree : free front flags ++ free [f] [true] = free front flags := List.append_nil _
      rw [hfree] at hlater
      exact hlater
    | false =>
      have hfree : free (f :: back) (false :: flags') = f :: free back flags' := rfl
      rw [if_pos rfl, set_flag hflags, hfree, findSome?_picks_cons, assignPick]
      dsimp only
      cases t.matchWith f σ with
      | mk ok τ =>
        cases ok with
        | false => exact hlater
        | true =>
          have hfound := h (flags ++ true :: flags') τ (by simp [hflags, hback])
          have hothers : free (front ++ f :: back) (flags ++ true :: flags') =
              free front flags ++ free back flags' := free_append hflags _ _
          rw [hothers] at hfound
          dsimp only
          refine hfound.or ?_
          -- `f` is freed again
          rw [set_flag hflags]
          exact hlater

/-- The search with flags finds what the search among the remaining forms finds. -/
theorem search_spec (forms templates : List Form) (used : List Bool) (σ : Substitution)
    (h : used.length = forms.length) :
    Finds (search forms templates used σ) (assign templates (free forms used) σ) used := by
  induction templates generalizing used σ with
  | nil => exact ⟨rfl, nofun⟩
  | cons t ts ih => exact searchFrom_spec [] forms [] used ih rfl h

theorem search_eq_assign (templates forms : List Form) (σ : Substitution) :
    (search forms templates (List.replicate forms.length false) σ).1 =
      assign templates forms σ := by
  have hspec := search_spec forms templates (List.replicate forms.length false) σ
    List.length_replicate
  rw [free_replicate] at hspec
  exact hspec.1

end Form

end NaturalDeduction
