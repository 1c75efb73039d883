import NaturalDeduction.Proofs.Derivation.Depth
import NaturalDeduction.Proofs.Derivation.Visibility

/-! # First and last lines of sub-proofs

    A sub-proof is cited by the numbers of its first and its last step. The last
    step is always a line of the sub-proof itself. The first step need not be:
    scopes are opened by looking at the last step only, and right after another
    sub-proof was closed this step is as deep as a scope that was just opened.
    Then a second scope can be opened in the first one before there is any step
    in it, and the first step is a line of a sub-proof inside the sub-proof.

    The main result says that this is the only way: the first step is a line of
    the sub-proof itself, or it is one level deeper and the sub-proof follows
    right after another one.
-/

namespace NaturalDeduction

namespace Log

variable {es : List Event} {p q k n : Nat}

/-! ### Lines of a scope -/

/-- What happens at place `k` happens directly in the scope that was opened at place `p`: this scope
    is open there, and no scope that was opened inside it is. -/
def Directly (es : List Event) (p k : Nat) : Prop :=
  OpenAt es p k ∧ openings (between es p k) = closings (between es p k)

theorem directly_iff_head? (hk : k ≤ es.length) :
    Directly es p k ↔ (openStack (es.take k)).head? = some p := by
  rw [List.head?_eq_getElem?, openStack_getElem?_iff, openWith_take hk]
  unfold Directly OpenAt
  rw [and_assoc, and_assoc, Nat.add_zero]

/-- Of the places where a scope is open, those directly in it are one deeper than its bracket. -/
theorem directly_iff_length (hk : k ≤ es.length) (hopen : OpenAt es p k) :
    Directly es p k ↔ (openStack (es.take k)).length = (openStack (es.take p)).length + 1 := by
  have hpk : p ≤ k := Nat.le_of_lt hopen.1
  have htake : (es.take k).take p = es.take p := by rw [List.take_take, Nat.min_eq_left hpk]
  obtain ⟨j, hj⟩ := List.mem_iff_getElem?.mp ((openAt_iff hk).mp hopen)
  -- below a bracket that has `j` others on top, the stack is that of its place
  have hlength : ∀ i : Nat, (openStack (es.take k))[i]? = some p →
      (openStack (es.take k)).length = (openStack (es.take p)).length + 1 + i := by
    intro i hi
    have hlt := (List.getElem?_eq_some_iff.mp hi).1
    have hdrop := congrArg List.length (openStack_drop hi)
    rw [htake, List.length_drop] at hdrop
    omega
  rw [directly_iff_head? hk, List.head?_eq_getElem?]
  constructor
  · intro htop
    exact hlength 0 htop
  · intro hlen
    have hzero := hlength j hj
    obtain rfl : j = 0 := by omega
    exact hj

theorem Contained.take (h : Contained es) (m : Nat) : Contained (es.take m) := by
  intro k
  rw [List.take_take]
  exact h (min k m)

/-- Between a pair of brackets the scope is open. -/
theorem Paired.openAt (h : Paired es p q) (hpk : p < k) (hkq : k ≤ q) : OpenAt es p k := by
  obtain ⟨_, hget, _, hcontained, _⟩ := h
  have hfront : between es p k = (between es p q).take (k - (p + 1)) := by
    rw [between, between, List.drop_take, List.drop_take, List.take_take]
    congr 1
    omega
  refine ⟨hpk, hget, ?_⟩
  rw [hfront]
  exact hcontained.take _

/-- An event that adds no step leaves the places where steps are added as they are. -/
theorem AddedAt.of_append {e : Event} (h : AddedAt (es ++ [e]) n k) (he : isAddition e = false) :
    AddedAt es n k := by
  rcases addedAt_append_singleton.mp h with hold | ⟨_, hkind, _⟩
  · exact hold
  · rw [he] at hkind
    cases hkind

end Log

namespace Derivation

open Log

variable {d : Derivation} {allowed : Derivation → Step → Prop} {past : List Derivation}
  {es : List Event} {depth : Nat} {scope : Scope} {a b : Nat}

/-! ### Levels and brackets -/

theorem Aligned.length_eq {stack : List Nat} {scopes : List Scope} (h : Aligned es stack scopes) :
    scopes.length = stack.length + 1 := by
  induction h with
  | outermost _ => rfl
  | inner _ _ _ ih => rw [List.length_cons, ih, List.length_cons]

/-- The scope at a depth holds what arose under as many brackets. -/
theorem Aligned.at_depth {stack : List Nat} {scopes : List Scope} (h : Aligned es stack scopes)
    (hscope : scopes.reverse[depth]? = some scope) :
    ∃ below : List Nat, below.length = depth ∧ ∀ c, c ∈ scope ↔ Arises es below c := by
  induction h with
  | outermost hmem =>
    rcases getElem?_reverse_cons hscope with ⟨rfl, rfl⟩ | ⟨hlt, _⟩
    · exact ⟨[], rfl, hmem⟩
    · cases hlt
  | @inner i stack inner outer halign _ hmem ih =>
    rcases getElem?_reverse_cons hscope with ⟨rfl, rfl⟩ | ⟨_, hscope⟩
    · exact ⟨i :: stack, halign.length_eq.symm, hmem⟩
    · exact ih hscope

theorem Grown.depth_eq_length (h : Grown allowed d past) :
    d.depth = (openStack d.events).length := by
  have hlength := h.alignedScopes.length_eq
  rw [List.length_cons] at hlength
  exact Nat.succ.inj hlength

/-- The level of a step is the number of brackets that were open when it was added. -/
theorem Grown.levelAt_of_addedAt (h : Grown allowed d past) {n k : Nat}
    (hadded : AddedAt d.events n k) :
    d.levelAt n = some (openStack (d.events.take k)).length := by
  have htake : ∀ {es : List Event} {e : Event}, AddedAt es n k → (es ++ [e]).take k = es.take k :=
    fun hold => List.take_append_of_le_length (Nat.le_of_lt hold.lt_length)
  induction h with
  | empty limit => cases hadded.lt_length
  | @addStep d _ _ step _ hd _ hadd ih =>
    obtain ⟨_, _, _, rfl⟩ := addStep_eq_ok_iff.mp hadd
    simp only [extend] at hadded ⊢
    rcases addedAt_append_singleton.mp hadded with hold | ⟨rfl, _, rfl⟩
    · -- a step from before keeps its level
      obtain ⟨s, hs, hlevel⟩ := Option.map_eq_some_iff.mp (ih hold)
      rw [htake hold, ← hlevel]
      exact congrArg (Option.map Step.level) (step?_extend_of_some hs)
    · -- the new step gets the current depth
      rw [List.take_left, hd.stepCount_events, ← hd.depth_eq_length]
      exact congrArg (Option.map Step.level) step?_extend_self
  | openScope _ hopen ih =>
    obtain ⟨_, _, rfl⟩ := openScope_eq_ok_iff.mp hopen
    simp only [opened] at hadded ⊢
    have hold := hadded.of_append rfl
    rw [htake hold]
    exact ih hold
  | closeScope _ hclose ih =>
    obtain ⟨_, _, _, _, rfl⟩ := closeScope_eq_ok_iff.mp hclose
    simp only [closedInto] at hadded ⊢
    have hold := hadded.of_append rfl
    rw [htake hold]
    exact ih hold

/-! ### First lines -/

/-- The last step that scopes cover is at most one level deeper than the innermost of them. -/
theorem Nested.last_level_le {scopes : List Scope} {hi : Nat} (h : d.Nested scopes hi) :
    (d.levelAt hi).getD 0 ≤ scopes.length := by
  induction h with
  | nil => exact Nat.le_refl 0
  | @cons inner outer lo hi _ htiles hfits ih =>
    rw [List.length_cons]
    cases hlast : inner.getLast? with
    | none =>
      obtain rfl : inner = [] := List.getLast?_eq_none_iff.mp hlast
      obtain rfl : lo = hi := htiles
      exact Nat.le_succ_of_le ih
    | some c =>
      obtain rfl : c.last = hi := htiles.last_of_getLast? hlast
      have hfit := hfits c (List.mem_of_getLast? hlast)
      cases c with
      | step k =>
        have hlevel : d.levelAt k = some outer.length := hfit
        simp [Citation.last, hlevel]
      | subproof a b =>
        have hlevel : d.levelAt b = some (outer.length + 1) := hfit.2
        simp [Citation.last, hlevel]

/-- The first line of a sub-proof is at the level of the sub-proof. Or else it is one level deeper,
    and the scope that lists the sub-proof lists another one right before it. -/
theorem Grown.first_level (h : Grown allowed d past)
    (hscope : d.scopes.toList[depth]? = some scope) (hc : .subproof a b ∈ scope) :
    d.levelAt a = some (depth + 1) ∨
      d.levelAt a = some (depth + 2) ∧ ∃ a', .subproof a' (a - 1) ∈ scope := by
  obtain ⟨outer, lo, mid, hdepth, hnested, htiles, hfits, _⟩ :=
    Nested.at_depth h.wellNested hscope
  have hbounds : lo < a ∧ a ≤ b ∧ b ≤ mid := htiles.bounds hc
  obtain ⟨l, hl, hdeeper⟩ := (hfits _ hc).1 a (Nat.le_refl a) hbounds.2.1
  have hnear : l ≤ (d.levelAt (a - 1)).getD 0 + 1 := by
    obtain ⟨s, hs, rfl⟩ := Option.map_eq_some_iff.mp hl
    have ha : a - 1 + 1 = a := by omega
    exact (h.adjacent_levels (n := a - 1) (ha ▸ hs)).2
  rw [hl, Option.some.injEq, Option.some.injEq]
  -- the entry before the sub-proof, if there is one, ends with the line before
  obtain ⟨front, rest, rfl⟩ := List.append_of_mem hc
  have hfront : Scope.Tiles lo front (a - 1) := htiles.front
  cases hlast : front.getLast? with
  | none =>
    -- the line before, if there is one, belongs to the scopes around this one
    obtain rfl : front = [] := List.getLast?_eq_none_iff.mp hlast
    obtain rfl : lo = a - 1 := hfront
    have hbefore := hnested.last_level_le
    exact .inl (by omega)
  | some e =>
    have hend : e.last = a - 1 := hfront.last_of_getLast? hlast
    have hmem : e ∈ front := List.mem_of_getLast? hlast
    have hfit := hfits e (List.mem_append_left _ hmem)
    cases e with
    | step k =>
      obtain rfl : k = a - 1 := hend
      have hlevel : d.levelAt (a - 1) = some depth := hfit
      rw [hlevel, Option.getD_some] at hnear
      exact .inl (by omega)
    | subproof a' b' =>
      obtain rfl : b' = a - 1 := hend
      have hlevel : d.levelAt (a - 1) = some (depth + 1) := hfit.2
      rw [hlevel, Option.getD_some] at hnear
      by_cases hown : l = depth + 1
      · exact .inl hown
      · exact .inr ⟨by omega, a', List.mem_append_left _ hmem⟩

/-- A sub-proof that a scope lists is what was added between a pair of brackets. Of its lines, those
    at the level of the sub-proof are the ones directly between these brackets. -/
theorem Grown.exists_paired (h : Grown allowed d past)
    (hscope : d.scopes.toList[depth]? = some scope) (hc : .subproof a b ∈ scope) :
    ∃ p q, Paired d.events p q ∧
      ∀ n, a ≤ n → n ≤ b → ∃ k, p < k ∧ k < q ∧ AddedAt d.events n k ∧
        (d.levelAt n = some (depth + 1) ↔ Directly d.events p k) := by
  have halign : Aligned d.events (openStack d.events) (d.scopes.current :: d.scopes.outer) :=
    h.alignedScopes
  obtain ⟨below, hdepth, hmem⟩ := halign.at_depth hscope
  obtain ⟨p, q, hpair, _, rfl, rfl, hstack⟩ := (hmem _).mp hc
  refine ⟨p, q, hpair, ?_⟩
  intro n hfirst hlast
  obtain ⟨k, hpk, hkq, hadded⟩ := hpair.exists_addedAt_iff.mpr ⟨hfirst, hlast⟩
  refine ⟨k, hpk, hkq, hadded, ?_⟩
  have hk := Nat.le_of_lt hadded.lt_length
  have hopen := hpair.openAt hpk (Nat.le_of_lt hkq)
  rw [directly_iff_length hk hopen, h.levelAt_of_addedAt hadded, hstack, hdepth,
    Option.some.injEq]

/-- A sub-proof of the current scope stands for the sequent from its first line to its last one. -/
theorem WellNested.premises_subproof (h : d.WellNested)
    (hscope : d.scopes.toList[d.depth]? = some scope) (hc : .subproof a b ∈ scope) :
    ∃ s t, d.step? a = some s ∧ d.step? b = some t ∧
      d.premises [.subproof a b] = .ok [.sequent [.formula s.formula] [t.formula]] := by
  rcases getElem?_reverse_cons hscope with ⟨_, rfl⟩ | ⟨hlt, _⟩
  · have hvisible : d.isVisible (.subproof a b) = true := by
      simp [isVisible, Scopes.isVisible, hc]
    obtain ⟨form, hden⟩ := h.exists_denotes hvisible
    cases hden with
    | @subproof _ _ s t hs ht =>
      refine ⟨s, t, hs, ht, premises_eq_ok_iff.mpr ⟨?_, .cons (.subproof hs ht) .nil⟩⟩
      intro c hcite
      rw [List.mem_singleton.mp hcite]
      exact hvisible
  · exact absurd hlt (Nat.lt_irrefl _)

/-- **Lines of a sub-proof.** In every derivation that can be reached, take a sub-proof that the
    scope at a depth lists. Its lines were added between a pair of brackets, and a line lies directly
    between them exactly if its level is one more than the depth. That is so for the last line. It
    is so for the first line too, unless the scope lists a sub-proof that ends right before it: then
    the first line may lie one level deeper. Where the sub-proof can be cited, it stands for the
    sequent from the first line to the last one. -/
theorem Reachable.subproof_lines (h : d.Reachable)
    (hscope : d.scopes.toList[depth]? = some scope) (hc : .subproof a b ∈ scope) :
    (∃ p q, Paired d.events p q ∧
      ∀ n, a ≤ n → n ≤ b → ∃ k, p < k ∧ k < q ∧ AddedAt d.events n k ∧
        (d.levelAt n = some (depth + 1) ↔ Directly d.events p k)) ∧
    d.levelAt b = some (depth + 1) ∧
    (d.levelAt a = some (depth + 1) ∨
      d.levelAt a = some (depth + 2) ∧ ∃ a', .subproof a' (a - 1) ∈ scope) ∧
    (depth = d.depth → ∃ s t, d.step? a = some s ∧ d.step? b = some t ∧
      d.premises [.subproof a b] = .ok [.sequent [.formula s.formula] [t.formula]]) := by
  obtain ⟨past, hhist⟩ := h
  have hg := hhist.grown
  obtain ⟨_, _, _, _, _, _, hfits, _⟩ := Nested.at_depth hg.wellNested hscope
  refine ⟨hg.exists_paired hscope hc, (hfits _ hc).2, hg.first_level hscope hc, ?_⟩
  intro hcurrent
  subst hcurrent
  exact hg.wellNested.premises_subproof hscope hc

/-- After `A` in a sub-proof of its own, a closed sub-proof with `B` one level deeper, then `C`. -/
def sampleSiblings : Derivation := (sampleNested 0).closedInto [.subproof 1 1] []

theorem reachable_sampleSiblings : sampleSiblings.Reachable := by
  obtain ⟨past, hhist⟩ := reachable_sampleNested (.inl rfl)
  exact ⟨past, .closeScope hhist
    (closeScope_eq_ok_iff.mpr ⟨[.subproof 1 1], [], rfl, .inl rfl, rfl⟩)⟩

/-- `C` lies directly in the second sub-proof, and `B` does not. -/
theorem Reachable.subproof_lines_sampleSiblings :
    sampleSiblings.Reachable ∧
      sampleSiblings.scopes.toList[0]? = some [.subproof 1 1, .subproof 2 3] ∧
        ∃ p q, Paired sampleSiblings.events p q ∧
          (∃ k, AddedAt sampleSiblings.events 3 k ∧ Directly sampleSiblings.events p k) ∧
            ∃ k, AddedAt sampleSiblings.events 2 k ∧ ¬ Directly sampleSiblings.events p k := by
  have hscope : sampleSiblings.scopes.toList[0]? = some [.subproof 1 1, .subproof 2 3] := rfl
  obtain ⟨⟨p, q, hpair, hlines⟩, hlast, _, _⟩ :=
    reachable_sampleSiblings.subproof_lines (a := 2) (b := 3) hscope (by decide)
  refine ⟨reachable_sampleSiblings, hscope, p, q, hpair, ?_, ?_⟩
  · obtain ⟨k, _, _, hadded, hlevel⟩ := hlines 3 (by decide) (by decide)
    exact ⟨k, hadded, hlevel.mp hlast⟩
  · obtain ⟨k, _, _, hadded, hlevel⟩ := hlines 2 (by decide) (by decide)
    refine ⟨k, hadded, ?_⟩
    intro hdirectly
    have hone : sampleSiblings.levelAt 2 = some 1 := hlevel.mpr hdirectly
    revert hone
    decide

/-- The first line of a sub-proof need not be one of its own: the second sub-proof of the outermost
    scope stands for a sequent with the premise `B`, which is a line of a sub-proof inside it. -/
theorem sampleSiblings_first_line_deeper :
    sampleSiblings.Reachable ∧
      sampleSiblings.scopes.toList = [[.subproof 1 1, .subproof 2 3]] ∧
        sampleSiblings.levelAt 2 = some 2 ∧
          sampleSiblings.premises [.subproof 2 3] =
            .ok [.sequent [.formula (.proposition "B")] [.proposition "C"]] :=
  ⟨reachable_sampleSiblings, rfl, rfl, rfl⟩

end Derivation

end NaturalDeduction
