import NaturalDeduction.Proofs.Derivation.Undo

/-! # Nesting of steps in scopes

    The open scopes list all steps of a derivation, each once: those of closed
    sub-proofs inside the range of the sub-proof, the others by their number.
    From the outermost scope to the innermost one, and from the oldest entry to
    the latest, the entries cover the numbers of the steps without gap or
    overlap.

    Each entry fits the depth of its scope. A step has just that level. A
    sub-proof covers deeper steps only, and ends with a step that is one level
    deeper. The last point is what the checks on closing a scope are for: a
    scope whose last entry is a sub-proof cannot be closed.

    * **Tilings**: entries that cover an interval of numbers in order.
    * **Steps**: numbers and levels, and the derivation to which a step was
      added.
    * **Nested scopes**: the invariant, and that every change keeps it.
    * **Partition**: what the invariant says of a derivation that can be
      reached, scope by scope.
-/

namespace NaturalDeduction

/-! ### Tilings -/

/-- The numbers of the steps that a citation covers, in order. -/
def Citation.numbers (c : Citation) : List Nat := List.range' c.first (c.last + 1 - c.first)

namespace Scope

/-- The entries of the scope cover the steps after `lo` up to `hi`, in order, each once. -/
def Tiles : Nat → Scope → Nat → Prop
  | lo, [], hi => lo = hi
  | lo, c :: cs, hi => c.first = lo + 1 ∧ lo + 1 ≤ c.last ∧ Tiles c.last cs hi

namespace Tiles

variable {lo mid hi : Nat} {s t : Scope}

theorem append (hs : Tiles lo s mid) (ht : Tiles mid t hi) : Tiles lo (s ++ t) hi := by
  induction s generalizing lo with
  | nil =>
    obtain rfl : lo = mid := hs
    exact ht
  | cons c cs ih => exact ⟨hs.1, hs.2.1, ih hs.2.2⟩

theorem singleton {c : Citation} (hf : c.first = lo + 1) (hl : lo + 1 ≤ c.last) :
    Tiles lo [c] c.last :=
  ⟨hf, hl, rfl⟩

theorem le (h : Tiles lo s hi) : lo ≤ hi := by
  induction s generalizing lo with
  | nil =>
    have heq : lo = hi := h
    omega
  | cons c cs ih =>
    have hrest := ih h.2.2
    have hc := h.2.1
    omega

/-- An entry covers steps of the interval only. -/
theorem bounds (h : Tiles lo s hi) {c : Citation} (hc : c ∈ s) :
    lo < c.first ∧ c.first ≤ c.last ∧ c.last ≤ hi := by
  induction s generalizing lo with
  | nil => cases hc
  | cons b bs ih =>
    obtain ⟨hf, hl, hrest⟩ := h
    rcases List.mem_cons.mp hc with rfl | hmem
    · have hle := hrest.le
      omega
    · have hlater := ih hrest hmem
      omega

/-- Each step of the interval is covered by an entry. -/
theorem exists_mem (h : Tiles lo s hi) {k : Nat} (hlo : lo < k) (hhi : k ≤ hi) :
    ∃ c ∈ s, c.first ≤ k ∧ k ≤ c.last := by
  induction s generalizing lo with
  | nil =>
    have heq : lo = hi := h
    omega
  | cons c cs ih =>
    obtain ⟨hf, hl, hrest⟩ := h
    by_cases hk : k ≤ c.last
    · exact ⟨c, List.mem_cons_self, by omega, hk⟩
    · obtain ⟨b, hb, hcover⟩ := ih hrest (by omega)
      exact ⟨b, List.mem_cons_of_mem _ hb, hcover⟩

/-- The last entry ends where the interval ends. -/
theorem last_of_getLast? (h : Tiles lo s hi) {c : Citation} (hc : s.getLast? = some c) :
    c.last = hi := by
  induction s generalizing lo with
  | nil => cases hc
  | cons b bs ih =>
    cases bs with
    | nil =>
      obtain rfl : b = c := by simpa using hc
      exact h.2.2
    | cons b' bs =>
      rw [List.getLast?_cons_cons] at hc
      exact ih h.2.2 hc

/-- Entries that come later cover later steps. -/
theorem pairwise (h : Tiles lo s hi) : s.Pairwise fun c c' => c.last < c'.first := by
  induction s generalizing lo with
  | nil => exact List.Pairwise.nil
  | cons c cs ih =>
    refine List.pairwise_cons.mpr ⟨?_, ih h.2.2⟩
    intro c' hc'
    exact (h.2.2.bounds hc').1

theorem nodup (h : Tiles lo s hi) : s.Nodup := by
  -- an entry that came twice would lie before itself
  have hself : ∀ c ∈ s, ¬ c.last < c.first := by
    intro c hc hlt
    have hbounds := h.bounds hc
    omega
  refine List.Pairwise.imp_of_mem ?_ h.pairwise
  intro c c' hc _ hlt heq
  subst heq
  exact hself c hc hlt

/-- The range of a scope is the interval that its entries cover. -/
theorem range?_eq (h : Tiles lo s hi) (hne : s ≠ []) : s.range? = some (lo + 1, hi) := by
  unfold Scope.range?
  cases s with
  | nil => exact absurd rfl hne
  | cons c cs =>
    obtain ⟨b, hb⟩ : ∃ b, (c :: cs).getLast? = some b := by
      cases hb : (c :: cs).getLast? with
      | none => simp at hb
      | some b => exact ⟨b, rfl⟩
    have hlast := h.last_of_getLast? hb
    simp only [List.head?_cons, hb, hlast, h.1]

theorem lt_of_ne_nil (h : Tiles lo s hi) (hne : s ≠ []) : lo < hi := by
  cases s with
  | nil => exact absurd rfl hne
  | cons c cs =>
    have hrest := h.2.2.le
    have hc := h.2.1
    omega

/-- Entry after entry, the steps that are covered are those of the interval. -/
theorem flatMap_numbers (h : Tiles lo s hi) :
    s.flatMap Citation.numbers = List.range' (lo + 1) (hi - lo) := by
  induction s generalizing lo with
  | nil =>
    obtain rfl : lo = hi := h
    simp
  | cons c cs ih =>
    obtain ⟨hfirst, hlast, hrest⟩ := h
    have hle := hrest.le
    have hsplit : List.range' (lo + 1) (hi - lo) =
        List.range' (lo + 1) (c.last - lo) ++ List.range' (c.last + 1) (hi - c.last) := by
      have hnext : c.last + 1 = lo + 1 + (c.last - lo) := by omega
      have hsum : hi - lo = c.last - lo + (hi - c.last) := by omega
      rw [hnext, List.range'_append_1, hsum]
    have hcount : c.last + 1 - (lo + 1) = c.last - lo := by omega
    rw [List.flatMap_cons, ih hrest, hsplit, Citation.numbers, hfirst, hcount]

/-- The entries before an entry cover the steps before it. -/
theorem front {c : Citation} (h : Tiles lo (s ++ c :: t) hi) : Tiles lo s (c.first - 1) := by
  induction s generalizing lo with
  | nil =>
    have hfirst : c.first = lo + 1 := h.1
    show lo = c.first - 1
    omega
  | cons b bs ih => exact ⟨h.1, h.2.1, ih h.2.2⟩

/-- What a closed scope leaves behind names the steps that it covered. -/
theorem mem_summary (h : Tiles lo s hi) {c : Citation} :
    c ∈ s.summary ↔ s ≠ [] ∧ c = .subproof (lo + 1) hi := by
  unfold summary
  by_cases hne : s = []
  · subst hne
    simp [Scope.range?]
  · simp [h.range?_eq hne, hne]

/-- What a closed scope leaves behind covers the same steps. -/
theorem summary (h : Tiles lo s hi) : Tiles lo s.summary hi := by
  unfold Scope.summary
  by_cases hne : s = []
  · subst hne
    exact h
  · rw [h.range?_eq hne]
    exact singleton (c := .subproof (lo + 1) hi) rfl (h.lt_of_ne_nil hne)

end Tiles

end Scope

namespace Derivation

variable {d d' : Derivation} {step : Step}

/-! ### Numbers and levels of steps -/

theorem step?_bounds {k : Nat} {s : Step} (h : d.step? k = some s) :
    1 ≤ k ∧ k ≤ d.steps.length := by
  cases k with
  | zero => cases h
  | succ n =>
    have hlt : n < d.steps.length := (List.getElem?_eq_some_iff.mp h).1
    omega

theorem exists_step? {k : Nat} (hpos : 1 ≤ k) (hle : k ≤ d.steps.length) :
    ∃ s, d.step? k = some s := by
  cases k with
  | zero => omega
  | succ n => exact ⟨d.steps[n], List.getElem?_eq_getElem (by omega)⟩

/-- A new step leaves the numbers of the others as they are. -/
theorem step?_extend_of_le {k : Nat} (hk : k ≤ d.steps.length) :
    (d.extend step).step? k = d.step? k := by
  cases k with
  | zero => rfl
  | succ n => exact List.getElem?_append_left (by omega)

theorem step?_extend_self :
    (d.extend step).step? (d.steps.length + 1) = some { step with level := d.depth } := by
  simp [step?, extend]

/-- A step that could be looked up before is the same one after another step was added. -/
theorem step?_extend_of_some {k : Nat} {s : Step} (h : d.step? k = some s) :
    (d.extend step).step? k = some s := by
  rw [step?_extend_of_le (step?_bounds h).2, h]

/-- The level of the step with a number. -/
def levelAt (d : Derivation) (k : Nat) : Option Nat := (d.step? k).map Step.level

theorem levelAt_length (h : d.steps ≠ []) : d.levelAt d.steps.length = some d.lastLevel := by
  obtain ⟨front, last, hs⟩ : ∃ front last, d.steps = front ++ [last] :=
    ⟨_, _, (List.dropLast_concat_getLast h).symm⟩
  simp [levelAt, lastLevel, step?, hs]

/-- Every step was added to a derivation that has grown in the same way, with the same steps before
    it. -/
theorem Grown.exists_before {allowed : Derivation → Step → Prop} {past : List Derivation}
    (h : Grown allowed d past) {n : Nat} {s : Step} (hs : d.step? n = some s) :
    ∃ before earlier added, Grown allowed before earlier ∧ allowed before added ∧
      before.addStep added = .ok (n, before.extend added) ∧
      s = { added with level := before.depth } ∧ before.depthLimit = d.depthLimit ∧
      ∀ k < n, before.step? k = d.step? k := by
  induction h with
  | empty limit => cases n <;> cases hs
  | @addStep d d' past added number hd ha hadd ih =>
    obtain ⟨hconcrete, hvisible, rfl, rfl⟩ := addStep_eq_ok_iff.mp hadd
    have hlength : (d.extend added).steps.length = d.steps.length + 1 := by simp [extend]
    have hle := (step?_bounds hs).2
    rw [hlength] at hle
    rcases Nat.lt_or_eq_of_le hle with hlt | rfl
    · -- a step from before was added to the same derivation as before
      rw [step?_extend_of_le (by omega)] at hs
      obtain ⟨before, earlier, added', hb, ha', hadd', hs', hlimit, hsame⟩ := ih hs
      refine ⟨before, earlier, added', hb, ha', hadd', hs', hlimit, ?_⟩
      intro k hk
      rw [hsame k hk, step?_extend_of_le (by omega)]
    · rw [step?_extend_self, Option.some.injEq] at hs
      refine ⟨d, past, added, hd, ha, hadd, hs.symm, rfl, ?_⟩
      intro k hk
      rw [step?_extend_of_le (by omega)]
  | openScope _ hopen ih =>
    obtain ⟨_, _, rfl⟩ := openScope_eq_ok_iff.mp hopen
    exact ih hs
  | closeScope _ hclose ih =>
    obtain ⟨_, _, _, _, rfl⟩ := closeScope_eq_ok_iff.mp hclose
    exact ih hs

/-- What an entry of the scope at a depth says about levels: a step is at that depth, a sub-proof is
    deeper throughout and ends one level deeper. -/
def Fits (d : Derivation) (depth : Nat) : Citation → Prop
  | .step k => d.levelAt k = some depth
  | .subproof a b =>
    (∀ k, a ≤ k → k ≤ b → ∃ l, d.levelAt k = some l ∧ depth < l) ∧ d.levelAt b = some (depth + 1)

/-- Fitting depends on the levels of the steps that the entry covers. -/
theorem Fits.congr {depth : Nat} {c : Citation} (h : d.Fits depth c) (hc : c.first ≤ c.last)
    (heq : ∀ k, c.first ≤ k → k ≤ c.last → d'.levelAt k = d.levelAt k) : d'.Fits depth c := by
  cases c with
  | step k =>
    have hk : d'.levelAt k = d.levelAt k := heq k (Nat.le_refl k) (Nat.le_refl k)
    exact hk.trans h
  | subproof a b =>
    have hb : d'.levelAt b = d.levelAt b := heq b hc (Nat.le_refl b)
    refine ⟨?_, hb.trans h.2⟩
    intro k hak hkb
    rw [heq k hak hkb]
    exact h.1 k hak hkb

/-- Every step that a fitting entry covers is at the depth of the scope or deeper. -/
theorem Fits.le_level {depth k : Nat} {c : Citation} (h : d.Fits depth c) (hf : c.first ≤ k)
    (hl : k ≤ c.last) : ∃ l, d.levelAt k = some l ∧ depth ≤ l := by
  cases c with
  | step n =>
    obtain rfl : k = n := Nat.le_antisymm hl hf
    exact ⟨depth, h, Nat.le_refl depth⟩
  | subproof a b =>
    obtain ⟨l, hlevel, hlt⟩ := h.1 k hf hl
    exact ⟨l, hlevel, by omega⟩

/-! ### Nested scopes -/

/-- Scopes, innermost first, that cover the steps up to `hi` in order, with entries that fit. -/
inductive Nested (d : Derivation) : List Scope → Nat → Prop where
  | nil : Nested d [] 0
  | cons {scope : Scope} {outer : List Scope} {lo hi : Nat} :
      Nested d outer lo → Scope.Tiles lo scope hi → (∀ c ∈ scope, d.Fits outer.length c) →
        Nested d (scope :: outer) hi

/-- The scopes of the derivation list all of its steps, each where it belongs. -/
def WellNested (d : Derivation) : Prop :=
  d.Nested (d.scopes.current :: d.scopes.outer) d.steps.length

theorem Nested.congr {scopes : List Scope} {hi : Nat} (h : d.Nested scopes hi)
    (heq : ∀ k ≤ hi, d'.levelAt k = d.levelAt k) : d'.Nested scopes hi := by
  induction h with
  | nil => exact .nil
  | cons _ htiles hfits ih =>
    refine .cons (ih fun k hk => heq k (Nat.le_trans hk htiles.le)) htiles ?_
    intro c hc
    have hb := htiles.bounds hc
    exact (hfits c hc).congr hb.2.1 fun k _ hk => heq k (Nat.le_trans hk hb.2.2)

/-- From the outermost scope to the innermost one, the entries cover all steps in order. -/
theorem Nested.tiles_flatten {scopes : List Scope} {hi : Nat} (h : d.Nested scopes hi) :
    Scope.Tiles 0 scopes.reverse.flatten hi := by
  induction h with
  | nil => rfl
  | cons _ htiles _ ih =>
    rw [List.reverse_cons, List.flatten_append, List.flatten_singleton]
    exact ih.append htiles

/-- The current scope covers the last steps. -/
theorem WellNested.tiles_current (h : d.WellNested) :
    ∃ lo, Scope.Tiles lo d.scopes.current d.steps.length := by
  cases h with
  | cons _ htiles _ => exact ⟨_, htiles⟩

theorem WellNested.empty (limit : Nat) : (Derivation.empty limit).WellNested :=
  .cons .nil rfl (by simp [Derivation.empty, Scopes.top])

theorem WellNested.extend (h : d.WellNested) : (d.extend step).WellNested := by
  cases h with
  | cons houter htiles hfits =>
    have hsame : ∀ k ≤ d.steps.length, (d.extend step).levelAt k = d.levelAt k := by
      intro k hk
      rw [levelAt, step?_extend_of_le hk, levelAt]
    -- entries from before fit as they did, since the steps that they cover are the same
    have hold : ∀ c ∈ d.scopes.current, (d.extend step).Fits d.scopes.outer.length c := by
      intro c hc
      have hb := htiles.bounds hc
      exact (hfits c hc).congr hb.2.1 fun k _ hk => hsame k (Nat.le_trans hk hb.2.2)
    have hnew : (d.extend step).Fits d.scopes.outer.length (.step (d.steps.length + 1)) := by
      show (d.extend step).levelAt (d.steps.length + 1) = some d.scopes.outer.length
      rw [levelAt, step?_extend_self]
      rfl
    have hlength : (d.extend step).steps.length = d.steps.length + 1 := by
      simp [Derivation.extend]
    show (d.extend step).Nested ((d.scopes.current ++ [.step (d.steps.length + 1)]) ::
      d.scopes.outer) (d.extend step).steps.length
    rw [hlength]
    refine .cons (houter.congr fun k hk => hsame k (Nat.le_trans hk htiles.le))
      (htiles.append (.singleton (c := .step (d.steps.length + 1)) rfl (Nat.le_refl _))) ?_
    intro c hc
    rcases List.mem_append.mp hc with hmem | hmem
    · exact hold c hmem
    · rw [List.mem_singleton.mp hmem]
      exact hnew

theorem WellNested.opened (h : d.WellNested) : d.opened.WellNested :=
  .cons (h.congr fun _ _ => rfl) rfl (by simp [Derivation.opened, Scopes.push])

/-- If the current scope may be closed, its last entry is the last step. -/
theorem WellNested.getLast?_current (h : d.WellNested)
    (hnear : d.depth = d.lastLevel ∨ d.depth = d.lastLevel + 1) {c : Citation}
    (hc : d.scopes.current.getLast? = some c) : c = .step d.steps.length := by
  cases h with
  | cons _ htiles hfits =>
    have hmem : c ∈ d.scopes.current := List.mem_of_getLast? hc
    have hlast : c.last = d.steps.length := htiles.last_of_getLast? hc
    have hfit := hfits c hmem
    cases c with
    | step k =>
      have hk : k = d.steps.length := hlast
      rw [hk]
    | subproof a b =>
      -- the last step would be inside the sub-proof, one level deeper than the scope
      have hb : b = d.steps.length := hlast
      subst hb
      have hpos := htiles.bounds hmem
      have hne : d.steps ≠ [] := by
        intro hnil
        simp only [Citation.last, Citation.first, hnil, List.length_nil] at hpos
        omega
      have hlevel : d.levelAt d.steps.length = some (d.scopes.outer.length + 1) := hfit.2
      rw [levelAt_length hne, Option.some.injEq] at hlevel
      have hdepth : d.depth = d.scopes.outer.length := rfl
      omega

theorem WellNested.closedInto (h : d.WellNested) {enclosing : Scope} {outer : List Scope}
    (ho : d.scopes.outer = enclosing :: outer)
    (hnear : d.depth = d.lastLevel ∨ d.depth = d.lastLevel + 1) :
    (d.closedInto enclosing outer).WellNested := by
  have hlast := fun c => h.getLast?_current hnear (c := c)
  unfold WellNested at h
  rw [ho] at h
  rcases h with _ | ⟨houter, htiles, hfits⟩
  rcases houter with _ | ⟨houter, htiles', hfits'⟩
  next lo lo' =>
  have hgoal : d.Nested ((enclosing ++ Scope.summary d.scopes.current) :: outer)
      d.steps.length := by
    refine .cons houter (htiles'.append htiles.summary) ?_
    intro c hc
    rcases List.mem_append.mp hc with hmem | hmem
    · exact hfits' c hmem
    · -- all that the closed scope covers is at its depth or deeper, and its last entry is a step
      obtain ⟨hne, rfl⟩ := htiles.mem_summary.mp hmem
      constructor
      · intro k hlo hhi
        obtain ⟨b, hb, hf, hl⟩ := htiles.exists_mem (k := k) (by omega) hhi
        obtain ⟨l, hlevel, hle⟩ := (hfits b hb).le_level hf hl
        exact ⟨l, hlevel, by simp at hle; omega⟩
      · have hend := hlast _ (List.getLast?_eq_some_getLast hne)
        have hfit := hfits _ (List.getLast_mem hne)
        rw [hend] at hfit
        exact hfit
  exact hgoal.congr fun _ _ => rfl

/-- The scopes of a derivation that has grown list its steps where they belong. -/
theorem Grown.wellNested {allowed : Derivation → Step → Prop} {past : List Derivation}
    (h : Grown allowed d past) : d.WellNested := by
  induction h with
  | empty limit => exact .empty limit
  | addStep _ _ hadd ih =>
    obtain ⟨_, _, _, rfl⟩ := addStep_eq_ok_iff.mp hadd
    exact ih.extend
  | openScope _ hopen ih =>
    obtain ⟨_, _, rfl⟩ := openScope_eq_ok_iff.mp hopen
    exact ih.opened
  | closeScope _ hclose ih =>
    obtain ⟨enclosing, outer, ho, hnear, rfl⟩ := closeScope_eq_ok_iff.mp hclose
    exact ih.closedInto ho hnear

/-! ### Partition -/

/-- Counted from the outermost scope, the scope at a depth is the innermost one or one of those
    around it. -/
theorem getElem?_reverse_cons {inner scope : Scope} {outer : List Scope} {depth : Nat}
    (h : (inner :: outer).reverse[depth]? = some scope) :
    depth = outer.length ∧ scope = inner ∨
      depth < outer.length ∧ outer.reverse[depth]? = some scope := by
  rw [List.reverse_cons] at h
  by_cases hlt : depth < outer.length
  · rw [List.getElem?_append_left (by simpa using hlt)] at h
    exact .inr ⟨hlt, h⟩
  · have hbound := (List.getElem?_eq_some_iff.mp h).1
    simp only [List.length_append, List.length_reverse, List.length_singleton] at hbound
    have hdepth : depth = outer.reverse.length := by
      rw [List.length_reverse]
      omega
    rw [hdepth, List.getElem?_concat_length, Option.some.injEq] at h
    exact .inl ⟨by rw [hdepth, List.length_reverse], h.symm⟩

/-- The scope at a depth: its entries fit the depth and cover the steps right after those of the
    scopes around it, and no step from there on is less deep. -/
theorem Nested.at_depth {scopes : List Scope} {hi depth : Nat} {scope : Scope}
    (h : d.Nested scopes hi) (hscope : scopes.reverse[depth]? = some scope) :
    ∃ outer lo mid, outer.length = depth ∧ d.Nested outer lo ∧ Scope.Tiles lo scope mid ∧
      (∀ c ∈ scope, d.Fits depth c) ∧
        ∀ k, lo < k → k ≤ hi → ∃ l, d.levelAt k = some l ∧ depth ≤ l := by
  induction h with
  | nil => simp at hscope
  | @cons inner outer lo hi houter htiles hfits ih =>
    -- steps that the innermost scope covers are at its depth or deeper
    have hlevels : ∀ k, lo < k → k ≤ hi → ∃ l, d.levelAt k = some l ∧ outer.length ≤ l := by
      intro k hlo hhi
      obtain ⟨c, hc, hfirst, hlast⟩ := htiles.exists_mem hlo hhi
      exact (hfits c hc).le_level hfirst hlast
    rcases getElem?_reverse_cons hscope with ⟨rfl, rfl⟩ | ⟨hlt, hscope⟩
    · exact ⟨outer, lo, hi, rfl, houter, htiles, hfits, hlevels⟩
    · obtain ⟨outer', lo', mid, hdepth, hnested, htiles', hfits', hlevels'⟩ := ih hscope
      refine ⟨outer', lo', mid, hdepth, hnested, htiles', hfits', ?_⟩
      intro k hlo hhi
      by_cases hk : k ≤ lo
      · exact hlevels' k hlo hk
      · obtain ⟨l, hl, hle⟩ := hlevels k (by omega) hhi
        exact ⟨l, hl, by omega⟩

/-- **The open scopes partition the steps.** In every derivation that can be reached, the entries of
    the open scopes, outermost scope first, cover the numbers of all steps one after the other. A
    step that a scope lists has the depth of the scope as its level; a sub-proof that a scope lists
    covers deeper steps only and ends one level deeper. -/
theorem Reachable.scopes_partition_steps (h : d.Reachable) :
    (∀ c ∈ d.scopes.toList.flatten, c.first ≤ c.last) ∧
    d.scopes.toList.flatten.flatMap Citation.numbers = List.range' 1 d.steps.length ∧
    ∀ depth scope, d.scopes.toList[depth]? = some scope → ∀ c ∈ scope, d.Fits depth c := by
  obtain ⟨past, hhist⟩ := h
  have hnested : d.Nested (d.scopes.current :: d.scopes.outer) d.steps.length :=
    hhist.grown.wellNested
  have htiles : Scope.Tiles 0 d.scopes.toList.flatten d.steps.length := hnested.tiles_flatten
  refine ⟨?_, htiles.flatMap_numbers, ?_⟩
  · intro c hc
    exact (htiles.bounds hc).2.1
  · intro depth scope hscope
    obtain ⟨_, _, _, _, _, _, hfits, _⟩ := hnested.at_depth hscope
    exact hfits

/-- A step that cites nothing can be added anywhere. -/
theorem addStep_sampleStep (d : Derivation) (name : String) :
    d.addStep (sampleStep name) = .ok (d.steps.length + 1, d.extend (sampleStep name)) :=
  addStep_eq_ok_iff.mpr ⟨rfl, by simp [sampleStep], rfl, rfl⟩

/-- `A` in a sub-proof that was closed. -/
def sampleSibling (limit : Nat) : Derivation :=
  ((Derivation.empty limit).opened.extend (sampleStep "A")).closedInto [] []

/-- After that, a sub-proof that starts with `B` in a sub-proof of its own and goes on with `C`. -/
def sampleNested (limit : Nat) : Derivation :=
  (((sampleSibling limit).opened.opened.extend (sampleStep "B")).closedInto []
    [[.subproof 1 1]]).extend (sampleStep "C")

theorem reachable_sampleNested {limit : Nat} (hlimit : limit = 0 ∨ 2 ≤ limit) :
    (sampleNested limit).Reachable := by
  have hone : limit = 0 ∨ 1 ≤ limit := by omega
  have hopened : History (Derivation.empty limit).opened [] :=
    .openScope (.empty limit) (openScope_eq_ok_iff.mpr ⟨.inl rfl, hone, rfl⟩)
  have hsibling : History (sampleSibling limit) _ :=
    .closeScope (.addStep hopened (addStep_sampleStep _ "A"))
      (closeScope_eq_ok_iff.mpr ⟨[], [], rfl, .inl rfl, rfl⟩)
  -- the last step is one level below the outermost scope, and at the level of the next one
  have hreopened : History (sampleSibling limit).opened.opened _ :=
    .openScope (.openScope hsibling (openScope_eq_ok_iff.mpr ⟨.inr rfl, hone, rfl⟩))
      (openScope_eq_ok_iff.mpr ⟨.inl rfl, hlimit, rfl⟩)
  have hinner := History.closeScope (.addStep hreopened (addStep_sampleStep _ "B"))
    (closeScope_eq_ok_iff.mpr ⟨[], [[.subproof 1 1]], rfl, .inl rfl, rfl⟩)
  exact ⟨_, .addStep hinner (addStep_sampleStep _ "C")⟩

/-- The outer scope holds the first step, in a sub-proof, and the inner scope the other two. -/
theorem Reachable.scopes_partition_steps_sampleNested :
    (sampleNested 0).Reachable ∧
      (sampleNested 0).scopes.toList = [[.subproof 1 1], [.subproof 2 2, .step 3]] ∧
        (sampleNested 0).scopes.toList.flatten.flatMap Citation.numbers = [1, 2, 3] ∧
          (sampleNested 0).Fits 1 (.subproof 2 2) := by
  have hreach := reachable_sampleNested (.inl rfl)
  obtain ⟨_, hnumbers, hfits⟩ := hreach.scopes_partition_steps
  exact ⟨hreach, rfl, hnumbers, hfits 1 [.subproof 2 2, .step 3] rfl _ List.mem_cons_self⟩

end Derivation

end NaturalDeduction
