import NaturalDeduction.Proofs.Formula.Path
import NaturalDeduction.Proofs.Formula.Subformulas

/-! # Paths as lenses

    Looking a part up and replacing it fit together as reading and writing do:
    what was put at a path is found there, putting back what was there changes
    nothing, and of two replacements at one path the second one counts. Paths
    that lie apart, so that none of them leads through the other, do not
    disturb each other.

    All of this is read off the relation `Replaced`, by induction on the way
    down to the part.
-/

namespace NaturalDeduction

/-- Neither path leads through what the other one leads to. -/
def Path.Apart (p q : Path) : Prop := ¬ p <+: q ∧ ¬ q <+: p

namespace Path.Apart

variable {p q : Path} {i : Nat}

theorem symm (h : Apart p q) : Apart q p := ⟨h.2, h.1⟩

theorem not_nil (h : Apart p q) : p ≠ [] := by
  intro hp
  exact h.1 (hp ▸ List.nil_prefix)

theorem tail (h : Apart (i :: p) (i :: q)) : Apart p q := by
  constructor
  · intro hpq
    exact h.1 (List.cons_prefix_cons.mpr ⟨rfl, hpq⟩)
  · intro hqp
    exact h.2 (List.cons_prefix_cons.mpr ⟨rfl, hqp⟩)

end Path.Apart

namespace Formula

variable {f g old new : Formula} {p q : Path}

/-! ### At the path -/

theorem at?_operand (op : Operator) (before after : List Formula) (f : Formula) (p : Path) :
    (app op (before ++ f :: after)).at? (before.length :: p) = f.at? p := by
  rw [at?_cons, operands, List.getElem?_append_right (Nat.le_refl _), Nat.sub_self]
  rfl

theorem replaceAt?_cons (op : Operator) (fs : List Formula) (i : Nat) (p : Path) (new : Formula) :
    (app op fs).replaceAt? (i :: p) new =
      ((fs[i]?).bind (·.replaceAt? p new)).map fun g => .app op (fs.set i g) := by
  rw [replaceAt?]
  cases fs[i]? with
  | none => rfl
  | some f =>
    dsimp only [Option.bind_some]
    cases f.replaceAt? p new <;> rfl

/-- Only what a path leads to can be replaced. -/
theorem exists_at?_of_replaceAt? (h : f.replaceAt? p new = some g) : ∃ old, f.at? p = some old := by
  induction p generalizing f g with
  | nil => exact ⟨f, at?_nil f⟩
  | cons i p ih =>
    cases f with
    | atom s => cases h
    | app op fs =>
      rw [replaceAt?_cons] at h
      obtain ⟨operand', hbelow, _⟩ := Option.map_eq_some_iff.mp h
      obtain ⟨operand, hi, hreplace⟩ := Option.bind_eq_some_iff.mp hbelow
      obtain ⟨old, hold⟩ := ih hreplace
      exact ⟨old, by rw [at?_cons, operands, hi, Option.bind_some, hold]⟩

namespace Replaced

theorem at?_eq (h : Replaced old new p f g) : g.at? p = some new := by
  induction h with
  | here => exact at?_nil new
  | operand _ ih => rw [at?_operand, ih]

/-- To put back what was there changes nothing. -/
theorem replaceAt?_old (h : Replaced old new p f g) : f.replaceAt? p old = some f := by
  induction h with
  | here => exact replaceAt?_nil old old
  | operand _ ih => rw [replaceAt?_operand, ih, Option.map_some]

/-- What was put at a path before does not matter. -/
theorem replaceAt?_again (h : Replaced old new p f g) (newer : Formula) :
    g.replaceAt? p newer = f.replaceAt? p newer := by
  induction h with
  | here => rw [replaceAt?_nil, replaceAt?_nil]
  | operand _ ih => rw [replaceAt?_operand, replaceAt?_operand, ih]

/-- The formula loses the nodes of the old part and gains those of the new one. -/
theorem size_add (h : Replaced old new p f g) : g.size + old.size = f.size + new.size := by
  induction h with
  | here => exact Nat.add_comm _ _
  | operand _ ih =>
    simp only [size, sizeAll_append, sizeAll]
    omega

/-- A part has no more nodes than the formula. -/
theorem size_old_le (h : Replaced old new p f g) : old.size ≤ f.size := by
  induction h with
  | here => exact Nat.le_refl _
  | operand _ ih =>
    simp only [size, sizeAll_append, sizeAll]
    omega

end Replaced

/-! ### At other paths -/

/-- What a path that lies apart leads to stays. -/
theorem Replaced.at?_apart (h : Replaced old new p f g) (hq : p.Apart q) : g.at? q = f.at? q := by
  induction h generalizing q with
  | here => exact absurd rfl hq.not_nil
  | @operand op before after p f g _ ih =>
    cases q with
    | nil => exact absurd rfl hq.symm.not_nil
    | cons j q =>
      by_cases hj : j = before.length
      · -- both paths lead into the same operand
        subst hj
        rw [at?_operand, at?_operand, ih hq.tail]
      · have hsame : (before ++ g :: after)[j]? = (before ++ f :: after)[j]? := by
          rw [List.getElem?_append, List.getElem?_append]
          by_cases hlt : j < before.length
          · rw [if_pos hlt, if_pos hlt]
          · obtain ⟨k, hk⟩ : ∃ k, j - before.length = k + 1 := ⟨j - before.length - 1, by omega⟩
            rw [if_neg hlt, if_neg hlt, hk, List.getElem?_cons_succ, List.getElem?_cons_succ]
        rw [at?_cons, at?_cons, operands, operands, hsame]

/-- Replacements at paths that lie apart can be exchanged, whether the paths lead somewhere or not. -/
theorem replaceAt?_comm (f : Formula) (hpq : p.Apart q) (r s : Formula) :
    (f.replaceAt? p r).bind (·.replaceAt? q s) = (f.replaceAt? q s).bind (·.replaceAt? p r) := by
  induction p generalizing f q with
  | nil => exact absurd rfl hpq.not_nil
  | cons i p ih =>
    cases q with
    | nil => exact absurd rfl hpq.symm.not_nil
    | cons j q =>
      cases f with
      | atom name => rfl
      | app op fs =>
        rw [replaceAt?_cons, replaceAt?_cons, Option.bind_map, Option.bind_map]
        simp only [Function.comp_def, replaceAt?_cons]
        by_cases hij : i = j
        · -- in the same operand, where the rests of the paths lie apart
          subst hij
          cases hi : fs[i]? with
          | none => rfl
          | some operand =>
            have hlt : i < fs.length := (List.getElem?_eq_some_iff.mp hi).1
            have hexchange := congrArg (Option.map fun h => app op (fs.set i h)) (ih operand hpq.tail)
            rw [Option.map_bind, Option.map_bind] at hexchange
            simp only [List.getElem?_set_self hlt, List.set_set, Option.bind_some]
            exact hexchange
        · -- in different operands, each of which stays when the other one is replaced
          have hseti : ∀ h, (fs.set i h)[j]? = fs[j]? := fun h => List.getElem?_set_ne hij
          have hsetj : ∀ h, (fs.set j h)[i]? = fs[i]? := fun h => List.getElem?_set_ne (Ne.symm hij)
          simp only [hseti, hsetj]
          cases (fs[i]?).bind (·.replaceAt? p r) with
          | none => cases (fs[j]?).bind (·.replaceAt? q s) <;> rfl
          | some g =>
            cases (fs[j]?).bind (·.replaceAt? q s) with
            | none => rfl
            | some h => simp only [Option.bind_some, Option.map_some, List.set_comm g h hij]

/-! ### The laws -/

/-- What is known of a formula `g` that was made from `f` by putting `new` at a path, where `old`
    was. -/
structure Update (f : Formula) (p : Path) (old new g : Formula) : Prop where
  /-- What was put is found. -/
  found : g.at? p = some new
  /-- To put what is there already changes nothing. -/
  unchanged : f.replaceAt? p old = some f
  /-- Of two replacements at the path the second one counts. -/
  overwritten : ∀ newer, g.replaceAt? p newer = f.replaceAt? p newer
  /-- A path that lies apart leads to the same part as before. -/
  elsewhere : ∀ q other, p.Apart q → f.at? q = some other → g.at? q = some other
  /-- With a replacement at a path that lies apart, the order does not matter. -/
  commutes : ∀ q other s, p.Apart q → f.at? q = some other →
    ∃ h k, f.replaceAt? q s = some h ∧ h.replaceAt? p new = some k ∧ g.replaceAt? q s = some k
  /-- The nodes of the old part are exchanged for those of the new one. -/
  size_eq : old.size ≤ f.size ∧ g.size = f.size - old.size + new.size

theorem Replaced.update (h : Replaced old new p f g) (hreplace : f.replaceAt? p new = some g) :
    f.Update p old new g where
  found := h.at?_eq
  unchanged := h.replaceAt?_old
  overwritten := h.replaceAt?_again
  elsewhere := by
    intro q other hq hother
    rw [h.at?_apart hq, hother]
  commutes := by
    intro q other s hq hother
    obtain ⟨h₁, hfirst, _⟩ := exists_replaced hother s
    have hstays : g.at? q = some other := by rw [h.at?_apart hq, hother]
    obtain ⟨k, hsecond, _⟩ := exists_replaced hstays s
    have hexchange := replaceAt?_comm f hq new s
    rw [hreplace, hfirst, Option.bind_some, Option.bind_some, hsecond] at hexchange
    exact ⟨h₁, k, hfirst, hexchange.symm, hsecond⟩
  size_eq := by
    have hle := h.size_old_le
    have hsum := h.size_add
    exact ⟨hle, by omega⟩

/-- **Paths are lenses.** The loop lists each sub-formula with exactly the paths that lead to it, no
    path twice, in lexicographic order, and as many as there are nodes. A part can be replaced
    exactly if a path leads to it, and then the laws of an update hold. -/
theorem paths_are_lenses (f : Formula) :
    (∀ p g, (p, g) ∈ f.listing ↔ f.at? p = some g) ∧
    (f.listing.map Prod.fst).Nodup ∧
    (f.listing.map Prod.fst).Pairwise (List.Lex (· < ·)) ∧
    f.listing.length = f.size ∧
    ∀ p new,
      ((∃ g, f.replaceAt? p new = some g) ↔ ∃ old, f.at? p = some old) ∧
      ∀ old g, f.at? p = some old → f.replaceAt? p new = some g → f.Update p old new g := by
  rw [listing_eq]
  refine ⟨fun p g => mem_subformulas_iff f, nodup_subformulas f, pairwise_subformulas f,
    length_subformulas f, ?_⟩
  intro p new
  refine ⟨⟨?_, ?_⟩, ?_⟩
  · intro h
    obtain ⟨g, hg⟩ := h
    exact exists_at?_of_replaceAt? hg
  · intro h
    obtain ⟨old, hold⟩ := h
    obtain ⟨g, hg, _⟩ := exists_replaced hold new
    exact ⟨g, hg⟩
  · intro old g hold hg
    obtain ⟨g', hg', hreplaced⟩ := exists_replaced hold new
    obtain rfl : g = g' := Option.some.inj (hg.symm.trans hg')
    exact hreplaced.update hg

/-- The formula `-(A & B)`. -/
def sampleNegation : Formula :=
  .app ⟨"Negation", .prefixed⟩
    [.app ⟨"Conjunction", .infixed⟩ [.proposition "A", .proposition "B"]]

/-- With `-C` in the place of `B` the formula has five nodes, and `A` is where it was. -/
theorem paths_are_lenses_sampleNegation :
    let new := Formula.app ⟨"Negation", .prefixed⟩ [.proposition "C"]
    Path.Apart [0, 1] [0, 0] ∧ sampleNegation.listing.length = 4 ∧
      ∃ g, sampleNegation.replaceAt? [0, 1] new = some g ∧
        sampleNegation.Update [0, 1] (.proposition "B") new g ∧
        g.at? [0, 0] = some (.proposition "A") ∧ g.size = 5 := by
  intro new
  have hapart : Path.Apart [0, 1] [0, 0] := by
    constructor <;> decide
  obtain ⟨_, _, _, hcount, hlaws⟩ := paths_are_lenses sampleNegation
  have hupdate := (hlaws [0, 1] new).2 (.proposition "B") _ rfl rfl
  refine ⟨hapart, hcount, _, rfl, hupdate, ?_, hupdate.size_eq.2⟩
  exact hupdate.elsewhere [0, 0] (.proposition "A") hapart rfl

end Formula

end NaturalDeduction
