import NaturalDeduction.Proofs.Derivation.Brackets
import NaturalDeduction.Proofs.Derivation.Nesting
import NaturalDeduction.Proofs.Except

/-! # Visible citations

    A derivation keeps, for each open scope, the citations that arose in it,
    and forgets the scopes that were closed but for the range of their steps.
    This is enough to tell what the brackets of its events let see.

    The invariant (`Aligned`) pairs the open scopes with the open brackets: the
    scope that a bracket opened holds exactly the citations that arose while
    this bracket was the innermost open one. A scope also starts to count its
    steps where its bracket stands, so that the range of a closed scope is that
    of the steps between its brackets.
-/

namespace NaturalDeduction

namespace Derivation

open Log

variable {d : Derivation} {es : List Event} {e : Event}

/-! ### Scopes and brackets -/

/-- The last step that scopes cover, innermost scope first; 0 if they cover none. -/
def covered : List Scope → Nat
  | [] => 0
  | scope :: outer =>
    match scope.getLast? with
    | some c => c.last
    | none => covered outer

theorem Nested.covered_eq {scopes : List Scope} {hi : Nat} (h : d.Nested scopes hi) :
    covered scopes = hi := by
  induction h with
  | nil => rfl
  | @cons scope outer lo hi _ htiles _ ih =>
    unfold covered
    cases hlast : scope.getLast? with
    | none =>
      obtain rfl : scope = [] := List.getLast?_eq_none_iff.mp hlast
      have heq : lo = hi := htiles
      exact ih.trans heq
    | some c => exact htiles.last_of_getLast? hlast

/-- Each scope holds what arose under the brackets that are open around it, and the scopes around a
    bracket cover the steps before it. -/
inductive Aligned (es : List Event) : List Nat → List Scope → Prop where
  | outermost {scope : Scope} : (∀ c, c ∈ scope ↔ Arises es [] c) → Aligned es [] [scope]
  | inner {i : Nat} {stack : List Nat} {scope : Scope} {outer : List Scope} :
      Aligned es stack outer → covered outer = stepCount (es.take i) →
        (∀ c, c ∈ scope ↔ Arises es (i :: stack) c) → Aligned es (i :: stack) (scope :: outer)

namespace Aligned

variable {stack : List Nat} {scope scope' : Scope} {scopes outer : List Scope}

theorem mem_head (h : Aligned es stack (scope :: outer)) (c : Citation) :
    c ∈ scope ↔ Arises es stack c := by
  cases h with
  | outermost hmem => exact hmem c
  | inner _ _ hmem => exact hmem c

/-- An event that brings nothing about under these brackets leaves the scopes aligned. -/
theorem append (h : Aligned es stack scopes) (hlt : ∀ i ∈ stack, i < es.length)
    (hnone : ∀ stack' c, stack' <:+ stack → ¬ BroughtAbout es stack' c e) :
    Aligned (es ++ [e]) stack scopes := by
  have hsame : ∀ stack' c, stack' <:+ stack →
      (Arises (es ++ [e]) stack' c ↔ Arises es stack' c) := by
    intro stack' c hs
    rw [arises_append_singleton]
    exact or_iff_left (hnone stack' c hs)
  induction h with
  | outermost hmem =>
    refine .outermost ?_
    intro c
    rw [hsame [] c List.suffix_rfl]
    exact hmem c
  | @inner i stack scope outer _ hcov hmem ih =>
    have hsuffix : stack <:+ i :: stack := List.suffix_cons i stack
    refine .inner (ih ?_ ?_ ?_) ?_ ?_
    · intro i' hi'
      exact hlt i' (List.mem_cons_of_mem i hi')
    · intro stack' c hs
      exact hnone stack' c (hs.trans hsuffix)
    · intro stack' c hs
      exact hsame stack' c (hs.trans hsuffix)
    · rw [List.take_append_of_le_length (Nat.le_of_lt (hlt i List.mem_cons_self))]
      exact hcov
    · intro c
      rw [hsame _ c List.suffix_rfl]
      exact hmem c

/-- An event that brings something about under all of the brackets changes the innermost scope. -/
theorem append_head (h : Aligned es stack (scope :: outer)) (hlt : ∀ i ∈ stack, i < es.length)
    (hnone : ∀ stack' c, stack' <:+ stack → BroughtAbout es stack' c e → stack' = stack)
    (hnew : ∀ c, c ∈ scope' ↔ c ∈ scope ∨ BroughtAbout es stack c e) :
    Aligned (es ++ [e]) stack (scope' :: outer) := by
  have hmem' : ∀ c, c ∈ scope' ↔ Arises (es ++ [e]) stack c := by
    intro c
    rw [hnew, arises_append_singleton, h.mem_head]
  cases h with
  | outermost _ => exact .outermost hmem'
  | @inner i below _ _ houter hcov _ =>
    refine .inner (houter.append ?_ ?_) ?_ hmem'
    · intro i' hi'
      exact hlt i' (List.mem_cons_of_mem i hi')
    · -- fewer brackets are open around the outer scopes
      intro stack' c hs hb
      have heq := hnone stack' c (hs.trans (List.suffix_cons i below)) hb
      have hlen := hs.length_le
      rw [heq, List.length_cons] at hlen
      omega
    · rw [List.take_append_of_le_length (Nat.le_of_lt (hlt i List.mem_cons_self))]
      exact hcov

/-- Some scope holds a citation exactly when it arose under brackets that are open. -/
theorem exists_mem_iff (h : Aligned es stack scopes) (c : Citation) :
    (∃ scope ∈ scopes, c ∈ scope) ↔ ∃ stack', stack' <:+ stack ∧ Arises es stack' c := by
  induction h with
  | outermost hmem =>
    simp [hmem]
  | @inner i stack scope outer _ _ hmem ih =>
    simp only [List.mem_cons, ih, hmem, List.suffix_cons_iff, or_and_right,
      exists_or, exists_eq_left]

end Aligned

theorem stepCount_eq_length (es : List Event) : stepCount es = (addedSteps es).length := by
  induction es with
  | nil => rfl
  | cons e es ih =>
    have hcons : stepCount (e :: es) = stepCount [e] + stepCount es := stepCount_append [e] es
    rw [hcons, ih]
    cases e <;> simp [addedSteps, isAddition, Nat.add_comm]

theorem Grown.stepCount_events {allowed : Derivation → Step → Prop} {past : List Derivation}
    (h : Grown allowed d past) : stepCount d.events = d.steps.length := by
  rw [h.steps_eq, stepCount_eq_length]

/-! ### Changes keep scopes aligned -/

/-- The scopes of the derivation hold what the brackets of its events say. -/
def AlignedScopes (d : Derivation) : Prop :=
  Aligned d.events (openStack d.events) (d.scopes.current :: d.scopes.outer)

theorem AlignedScopes.empty (limit : Nat) : (Derivation.empty limit).AlignedScopes := by
  refine .outermost ?_
  intro c
  have hnone : ¬ Arises [] [] c := by
    cases c <;> simp [Arises, AddedAt, Paired]
  constructor
  · intro hc
    cases hc
  · intro hc
    exact absurd hc hnone

/-- A new step arises under all open brackets. -/
theorem AlignedScopes.extend {step : Step} (h : d.AlignedScopes)
    (hcount : stepCount d.events = d.steps.length) : (d.extend step).AlignedScopes := by
  unfold AlignedScopes at h ⊢
  simp only [Derivation.extend, Scopes.record, openStack_append_singleton, stackStep]
  refine h.append_head (fun i => lt_of_mem_openStack) ?_ ?_
  · intro stack' c _ hb
    exact hb.2.symm
  · intro c
    have hstep : BroughtAbout d.events (openStack d.events) c
        (.addStep { step with level := d.depth }) ↔ c = .step (d.steps.length + 1) := by
      simp [BroughtAbout, hcount]
    rw [hstep, List.mem_append, List.mem_singleton]

/-- Nothing has arisen yet under a bracket that has just been opened. -/
theorem AlignedScopes.opened (h : d.AlignedScopes)
    (hcount : stepCount d.events = d.steps.length) (hnested : d.WellNested) :
    d.opened.AlignedScopes := by
  unfold AlignedScopes at h ⊢
  simp only [Derivation.opened, Scopes.push, openStack_append_singleton, stackStep]
  refine .inner (h.append (fun i => lt_of_mem_openStack) ?_) ?_ ?_
  · intro stack' c _ hb
    exact hb
  · rw [List.take_left, hcount]
    exact Nested.covered_eq hnested
  · intro c
    have hnone : ¬ Arises (d.events ++ [.openScope])
        (d.events.length :: openStack d.events) c := by
      rw [arises_append_singleton]
      intro hor
      rcases hor with hold | hnew
      · exact absurd (hold.lt_length List.mem_cons_self) (Nat.lt_irrefl _)
      · exact hnew
    constructor
    · intro hc
      cases hc
    · intro hc
      exact absurd hc hnone

/-- A scope that is closed has covered the steps between its brackets. -/
theorem AlignedScopes.closedInto {enclosing : Scope} {outer : List Scope} (h : d.AlignedScopes)
    (hcount : stepCount d.events = d.steps.length) (hnested : d.WellNested)
    (houter : d.scopes.outer = enclosing :: outer) :
    (d.closedInto enclosing outer).AlignedScopes := by
  unfold WellNested at hnested
  unfold AlignedScopes at h ⊢
  have hlt : ∀ i ∈ openStack d.events, i < d.events.length := fun i => lt_of_mem_openStack
  rw [houter] at h hnested
  simp only [Derivation.closedInto, openStack_append_singleton, stackStep]
  generalize hstack : openStack d.events = stack at h hlt
  cases h with
  | @inner i below _ _ halign hcov _ =>
    cases hnested with
    | @cons _ _ lo _ houter' htiles _ =>
      have hlo : lo = stepCount (d.events.take i) := by
        rw [← houter'.covered_eq, hcov]
      refine halign.append_head (fun i' hi' => hlt i' (List.mem_cons_of_mem i hi')) ?_ ?_
      · intro stack' c _ hb
        obtain ⟨i', hi', _⟩ := hb
        rw [hstack] at hi'
        exact (List.cons.inj hi').2.symm
      · intro c
        have hbrought : BroughtAbout d.events below c .closeScope ↔
            stepCount (d.events.take i) < d.steps.length ∧
              c = .subproof (stepCount (d.events.take i) + 1) d.steps.length := by
          simp [BroughtAbout, hstack, hcount]
        have hsome : d.scopes.current ≠ [] ↔ stepCount (d.events.take i) < d.steps.length := by
          rw [← hlo]
          constructor
          · exact htiles.lt_of_ne_nil
          · intro hlt' hnil
            rw [hnil] at htiles
            have heq : lo = d.steps.length := htiles
            omega
        rw [List.mem_append, htiles.mem_summary, hbrought, hsome, hlo]

/-- The scopes of a derivation that has grown hold what the brackets of its events say. -/
theorem Grown.alignedScopes {allowed : Derivation → Step → Prop} {past : List Derivation}
    (h : Grown allowed d past) : d.AlignedScopes := by
  induction h with
  | empty limit => exact .empty limit
  | addStep hd _ hadd ih =>
    obtain ⟨_, _, _, rfl⟩ := addStep_eq_ok_iff.mp hadd
    exact ih.extend hd.stepCount_events
  | openScope hd hopen ih =>
    obtain ⟨_, _, rfl⟩ := openScope_eq_ok_iff.mp hopen
    exact ih.opened hd.stepCount_events hd.wellNested
  | closeScope hd hclose ih =>
    obtain ⟨enclosing, outer, houter, _, rfl⟩ := closeScope_eq_ok_iff.mp hclose
    exact ih.closedInto hd.stepCount_events hd.wellNested houter

/-! ### What can be cited -/

theorem mem_available_iff (c : Citation) : c ∈ d.available ↔ d.isVisible c = true := by
  unfold available isVisible Scopes.available Scopes.isVisible
  cases hc : c.isSubproof <;> simp [hc]

/-- No citation is listed twice. -/
theorem WellNested.nodup_available (h : d.WellNested) : d.available.Nodup := by
  have hall : ((d.scopes.current :: d.scopes.outer).reverse.flatten).Nodup :=
    (Nested.tiles_flatten h).nodup
  -- the available citations are the listed ones without sub-proofs of outer scopes
  have hsub : d.available.Sublist (d.scopes.current :: d.scopes.outer).reverse.flatten := by
    unfold available Scopes.available
    rw [List.reverse_cons, List.flatten_append, List.flatten_singleton, List.flatMap_def,
      ← List.filter_flatten]
    exact List.filter_sublist.append_right _
  exact hall.sublist hsub

/-- What the scopes let see is what the brackets let see. -/
theorem Grown.isVisible_iff {allowed : Derivation → Step → Prop} {past : List Derivation}
    (h : Grown allowed d past) (c : Citation) :
    d.isVisible c = true ↔ Visible d.events c := by
  have halign : Aligned d.events (openStack d.events) (d.scopes.current :: d.scopes.outer) :=
    h.alignedScopes
  unfold isVisible Scopes.isVisible
  cases c with
  | step n =>
    -- steps are seen in all open scopes, sub-proofs in the innermost one only
    have hsome := halign.exists_mem_iff (.step n)
    rw [visible_step_iff, ← hsome]
    simp [Citation.isSubproof, or_comm]
  | subproof a b =>
    rw [visible_subproof_iff, ← halign.mem_head]
    simp [Citation.isSubproof]

/-- What a citation stands for: the formula of a step, or the sequent from the first formula of a
    sub-proof to its last one. -/
inductive Denotes (d : Derivation) : Citation → Form → Prop where
  | step {n : Nat} {s : Step} : d.step? n = some s → Denotes d (.step n) (.formula s.formula)
  | subproof {a b : Nat} {s t : Step} : d.step? a = some s → d.step? b = some t →
      Denotes d (.subproof a b) (.sequent [.formula s.formula] [t.formula])

theorem resolve_eq_ok_iff {c : Citation} {form : Form} :
    d.resolve c = .ok form ↔ d.Denotes c form := by
  cases c with
  | step n =>
    unfold resolve
    constructor
    · intro h
      cases hs : d.step? n with
      | none => simp [hs] at h
      | some s =>
        obtain rfl : Form.formula s.formula = form := by simpa [hs] using h
        exact .step hs
    · intro h
      cases h with
      | step hs => simp [hs]
  | subproof a b =>
    unfold resolve
    constructor
    · intro h
      cases hs : d.step? a with
      | none => simp [hs] at h
      | some s =>
        cases ht : d.step? b with
        | none => simp [hs, ht] at h
        | some t =>
          obtain rfl : Form.sequent [.formula s.formula] [t.formula] = form := by
            simpa [hs, ht] using h
          exact .subproof hs ht
    · intro h
      cases h with
      | subproof hs ht => simp [hs, ht]

theorem exists_scope_of_isVisible {c : Citation} (hc : d.isVisible c = true) :
    ∃ scope ∈ d.scopes.current :: d.scopes.outer, c ∈ scope := by
  unfold isVisible Scopes.isVisible at hc
  simp only [Bool.or_eq_true, Bool.and_eq_true, List.any_eq_true, List.contains_iff_mem] at hc
  rcases hc with ⟨_, scope, hscope, hcs⟩ | hcs
  · exact ⟨scope, List.mem_cons_of_mem _ hscope, hcs⟩
  · exact ⟨d.scopes.current, List.mem_cons_self, hcs⟩

/-- The citations of a scope cover steps that exist. -/
theorem WellNested.bounds (h : d.WellNested) {c : Citation} (hc : d.isVisible c = true) :
    1 ≤ c.first ∧ c.first ≤ c.last ∧ c.last ≤ d.steps.length := by
  obtain ⟨scope, hscope, hcs⟩ := exists_scope_of_isVisible hc
  have hmem : c ∈ (d.scopes.current :: d.scopes.outer).reverse.flatten :=
    List.mem_flatten.mpr ⟨scope, List.mem_reverse.mpr hscope, hcs⟩
  exact (Nested.tiles_flatten h).bounds hmem

/-- A visible citation stands for something. -/
theorem WellNested.exists_denotes (h : d.WellNested) {c : Citation}
    (hc : d.isVisible c = true) : ∃ form, d.Denotes c form := by
  have hb := h.bounds hc
  obtain ⟨s, hs⟩ := exists_step? (d := d) hb.1 (by omega)
  obtain ⟨t, ht⟩ := exists_step? (d := d) (k := c.last) (by omega) hb.2.2
  cases c with
  | step n => exact ⟨_, .step hs⟩
  | subproof a b => exact ⟨_, .subproof hs ht⟩

/-- Citations are resolved exactly when all of them are visible, one by one and in order. -/
theorem premises_eq_ok_iff {citations : List Citation} {forms : List Form} :
    d.premises citations = .ok forms ↔
      (∀ c ∈ citations, d.isVisible c = true) ∧ List.Forall₂ d.Denotes citations forms := by
  unfold premises
  rw [Except.bind_eq_ok, ← checkVisible_eq_ok_iff]
  simp only [Except.mapM_eq_ok, resolve_eq_ok_iff]
  constructor
  · intro h
    obtain ⟨_, hvisible, hforms⟩ := h
    exact ⟨hvisible, hforms⟩
  · intro h
    exact ⟨(), h.1, h.2⟩

theorem WellNested.exists_premises_iff (h : d.WellNested) {citations : List Citation} :
    (∃ forms, d.premises citations = .ok forms) ↔ ∀ c ∈ citations, d.isVisible c = true := by
  simp only [premises_eq_ok_iff]
  constructor
  · intro hok
    obtain ⟨_, hall, _⟩ := hok
    exact hall
  · intro hall
    induction citations with
    | nil => exact ⟨[], hall, .nil⟩
    | cons c cs ih =>
      obtain ⟨form, hform⟩ := h.exists_denotes (hall c List.mem_cons_self)
      obtain ⟨forms, _, hforms⟩ := ih fun c' hc' => hall c' (List.mem_cons_of_mem c hc')
      exact ⟨form :: forms, hall, .cons hform hforms⟩

/-- **Visibility is bracket scoping.** In every derivation that can be reached, a citation is visible
    exactly when the brackets of the events let it be seen. The available citations are the visible
    ones, each once. Citations are resolved exactly when all of them are visible, in order, each to
    what it stands for. -/
theorem Reachable.citations_follow_brackets (h : d.Reachable) :
    (∀ c, d.isVisible c = true ↔ Visible d.events c) ∧
    d.available.Nodup ∧
    (∀ c, c ∈ d.available ↔ Visible d.events c) ∧
    (∀ cs, (∃ forms, d.premises cs = .ok forms) ↔ ∀ c ∈ cs, Visible d.events c) ∧
    ∀ cs forms, d.premises cs = .ok forms → List.Forall₂ d.Denotes cs forms := by
  obtain ⟨past, hhist⟩ := h
  have hg := hhist.grown
  have hn := hg.wellNested
  refine ⟨hg.isVisible_iff, hn.nodup_available, ?_, ?_, ?_⟩
  · intro c
    rw [mem_available_iff, hg.isVisible_iff]
  · intro cs
    rw [hn.exists_premises_iff]
    simp only [hg.isVisible_iff]
  · intro cs forms hok
    exact (premises_eq_ok_iff.mp hok).2

/-- After a sub-proof was closed, it can be seen as a whole, but not the step in it. -/
theorem Reachable.citations_follow_brackets_sampleClosed :
    sampleClosed.Reachable ∧ Visible sampleClosed.events (.step 1) ∧
      Visible sampleClosed.events (.subproof 2 2) ∧ ¬ Visible sampleClosed.events (.step 2) := by
  have hreach : sampleClosed.Reachable := ⟨_, history_sampleClosed⟩
  obtain ⟨hvisible, _⟩ := hreach.citations_follow_brackets
  refine ⟨hreach, (hvisible (.step 1)).mp (by decide), (hvisible (.subproof 2 2)).mp (by decide), ?_⟩
  intro hinside
  have hseen := (hvisible (.step 2)).mpr hinside
  revert hseen
  decide

end Derivation

end NaturalDeduction
