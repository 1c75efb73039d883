import Mathlib.Data.List.Induction
import NaturalDeduction.Derivation.Basic

/-! # Events as brackets

    The events of a derivation are read as a text with brackets: opening a
    scope is an opening bracket, closing it the closing bracket that answers.
    Which brackets belong together, and which are open at a place, is said by
    counting: a bracket is open as long as no part of the events right after it
    has more closing brackets than opening ones.

    The key fact (`openStack_getElem?_iff`) is that the brackets open at the
    end form a stack: the `k`-th one from the top is the one with exactly `k`
    open brackets inside it.
-/

namespace NaturalDeduction.Log

/-! ### Counting -/

/-- Does the event open a scope? -/
def isOpening : Event → Bool
  | .openScope => true
  | _ => false

/-- Does the event close a scope? -/
def isClosing : Event → Bool
  | .closeScope => true
  | _ => false

/-- Does the event add a step? -/
def isAddition : Event → Bool
  | .addStep _ => true
  | _ => false

/-- The number of opening brackets. -/
def openings (es : List Event) : Nat := es.countP isOpening

/-- The number of closing brackets. -/
def closings (es : List Event) : Nat := es.countP isClosing

/-- The number of steps that were added. -/
def stepCount (es : List Event) : Nat := es.countP isAddition

/-- The events strictly between two places. -/
def between (es : List Event) (i j : Nat) : List Event := (es.take j).drop (i + 1)

/-- Every closing bracket among the events answers an opening bracket among them. -/
def Contained (es : List Event) : Prop := ∀ k, closings (es.take k) ≤ openings (es.take k)

/-! ### Brackets -/

/-- The event at place `i` opens a scope that is still open before the event at place `j`. -/
def OpenAt (es : List Event) (i j : Nat) : Prop :=
  i < j ∧ es[i]? = some .openScope ∧ Contained (between es i j)

/-- The event at place `j` closes the scope that the event at place `i` opened. -/
def Paired (es : List Event) (i j : Nat) : Prop :=
  i < j ∧ es[i]? = some .openScope ∧ es[j]? = some .closeScope ∧ Contained (between es i j) ∧
    openings (between es i j) = closings (between es i j)

/-- The event at place `k` adds the step with number `n`. -/
def AddedAt (es : List Event) (n k : Nat) : Prop :=
  (∃ step, es[k]? = some (.addStep step)) ∧ n = stepCount (es.take k) + 1

/-- Which citations the brackets let see. A step is seen as long as all scopes are open that were
    open when it was added. A sub-proof with steps in it is seen where exactly those scopes are open
    that were open around it. -/
def Visible (es : List Event) : Citation → Prop
  | .step n => ∃ k, AddedAt es n k ∧ ∀ i, OpenAt es i k → OpenAt es i es.length
  | .subproof a b => ∃ i j, Paired es i j ∧
      (∃ n k, i < k ∧ k < j ∧ AddedAt es n k) ∧
      (∀ n, (a ≤ n ∧ n ≤ b) ↔ ∃ k, i < k ∧ k < j ∧ AddedAt es n k) ∧
      ∀ m, OpenAt es m i ↔ OpenAt es m es.length

/-! ### One more event -/

variable {es : List Event} {e : Event} {i j k : Nat}

@[simp] theorem openings_append (es es' : List Event) :
    openings (es ++ es') = openings es + openings es' := List.countP_append

@[simp] theorem closings_append (es es' : List Event) :
    closings (es ++ es') = closings es + closings es' := List.countP_append

@[simp] theorem stepCount_append (es es' : List Event) :
    stepCount (es ++ es') = stepCount es + stepCount es' := List.countP_append

@[simp] theorem openings_singleton (e : Event) :
    openings [e] = if isOpening e then 1 else 0 := by
  simp [openings, List.countP_cons]

@[simp] theorem closings_singleton (e : Event) :
    closings [e] = if isClosing e then 1 else 0 := by
  simp [closings, List.countP_cons]

@[simp] theorem stepCount_singleton (e : Event) :
    stepCount [e] = if isAddition e then 1 else 0 := by
  simp [stepCount, List.countP_cons]

/-- What lies between a bracket and the end grows by the new event. -/
theorem between_append_singleton (hi : i < es.length) :
    between (es ++ [e]) i (es.length + 1) = between es i es.length ++ [e] := by
  have htake : (es ++ [e]).take (es.length + 1) = es ++ [e] :=
    List.take_of_length_le (by simp)
  rw [between, htake, List.drop_append_of_le_length (by omega), between, List.take_length]

theorem between_self : between (es ++ [e]) es.length (es.length + 1) = [] := by
  simp [between]

theorem Contained.le (h : Contained es) : closings es ≤ openings es := by
  have hall := h es.length
  rw [List.take_length] at hall
  exact hall

theorem contained_nil : Contained [] := by
  intro k
  simp [closings, openings]

/-- A new event keeps the closing brackets answered, unless it is one too many. -/
theorem contained_append_singleton :
    Contained (es ++ [e]) ↔ Contained es ∧ (isClosing e = true → closings es < openings es) := by
  constructor
  · intro h
    refine ⟨?_, ?_⟩
    · intro k
      by_cases hk : k ≤ es.length
      · have hfront := h k
        rw [List.take_append_of_le_length hk] at hfront
        exact hfront
      · have hfront := h es.length
        rw [List.take_append_of_le_length (Nat.le_refl _), List.take_length] at hfront
        rw [List.take_of_length_le (by omega)]
        exact hfront
    · -- the closing bracket is counted, and no opening one is
      intro hc
      have hopen : isOpening e = false := by
        cases e with
        | addStep step => rfl
        | openScope => cases hc
        | closeScope => rfl
      have hle := h.le
      simp only [closings_append, openings_append, closings_singleton, openings_singleton, hc,
        hopen, if_true, Bool.false_eq_true, if_false] at hle
      omega
  · intro hboth k
    obtain ⟨h, hc⟩ := hboth
    by_cases hk : k ≤ es.length
    · rw [List.take_append_of_le_length hk]
      exact h k
    · rw [List.take_of_length_le (by simp; omega)]
      have hle := h.le
      simp only [closings_append, openings_append, closings_singleton, openings_singleton]
      cases he : isClosing e with
      | false =>
        simp only [Bool.false_eq_true, if_false]
        omega
      | true =>
        have hroom := hc he
        simp only [if_true]
        omega

/-! ### The stack of open brackets -/

/-- What the event at place `i` does to the stack. -/
def stackStep (i : Nat) (stack : List Nat) : Event → List Nat
  | .addStep _ => stack
  | .openScope => i :: stack
  | .closeScope => stack.tail

/-- The places of the brackets that are open at the end, innermost first. -/
def openStack (es : List Event) : List Nat :=
  es.zipIdx.foldl (fun stack entry => stackStep entry.2 stack entry.1) []

@[simp] theorem openStack_append_singleton (es : List Event) (e : Event) :
    openStack (es ++ [e]) = stackStep es.length (openStack es) e := by
  simp [openStack, List.zipIdx_append]

theorem lt_of_mem_openStack (h : i ∈ openStack es) : i < es.length := by
  induction es using List.reverseRecOn with
  | nil => cases h
  | append_singleton es e ih =>
    rw [openStack_append_singleton] at h
    rw [List.length_append, List.length_singleton]
    cases e with
    | addStep step => exact Nat.lt_succ_of_lt (ih h)
    | openScope =>
      rcases List.mem_cons.mp h with rfl | hmem
      · exact Nat.lt_succ_self _
      · exact Nat.lt_succ_of_lt (ih hmem)
    | closeScope => exact Nat.lt_succ_of_lt (ih (List.mem_of_mem_tail h))

/-- The event at place `i` opens a scope that is open at the end, with just `k` open scopes inside
    it. -/
def OpenWith (es : List Event) (k i : Nat) : Prop :=
  es[i]? = some .openScope ∧ Contained (between es i es.length) ∧
    openings (between es i es.length) = closings (between es i es.length) + k

theorem OpenWith.lt_length (h : OpenWith es k i) : i < es.length :=
  (List.getElem?_eq_some_iff.mp h.1).1

/-- A scope that has just been opened has nothing inside it. -/
theorem openWith_append_self : OpenWith (es ++ [e]) k es.length ↔ e = .openScope ∧ k = 0 := by
  unfold OpenWith
  rw [List.length_append, List.length_singleton, between_self, List.getElem?_concat_length]
  constructor
  · intro h
    obtain ⟨he, _, hcount⟩ := h
    have hzero : 0 = 0 + k := hcount
    exact ⟨Option.some.inj he, by omega⟩
  · intro h
    obtain ⟨rfl, rfl⟩ := h
    exact ⟨rfl, contained_nil, rfl⟩

/-- Inside a scope from before the event, as many are open as before, or one more or less. -/
theorem openWith_append_of_lt (hi : i < es.length) :
    OpenWith (es ++ [e]) k i ↔
      match e, k with
      | .addStep _, k => OpenWith es k i
      | .openScope, 0 => False
      | .openScope, k + 1 => OpenWith es k i
      | .closeScope, k => OpenWith es (k + 1) i := by
  unfold OpenWith
  rw [List.getElem?_append_left hi, List.length_append, List.length_singleton,
    between_append_singleton hi, contained_append_singleton, openings_append, closings_append,
    openings_singleton, closings_singleton]
  -- what is left is to compare the counts
  constructor
  · intro h
    obtain ⟨hget, ⟨hcontained, hclosing⟩, hcount⟩ := h
    have hle := hcontained.le
    cases e with
    | addStep step => exact ⟨hget, hcontained, hcount⟩
    | openScope =>
      cases k with
      | zero =>
        simp only [isOpening, isClosing, if_true, Bool.false_eq_true, if_false] at hcount
        omega
      | succ k =>
        simp only [isOpening, isClosing, if_true, Bool.false_eq_true, if_false] at hcount
        exact ⟨hget, hcontained, by omega⟩
    | closeScope =>
      simp only [isOpening, isClosing, if_true, Bool.false_eq_true, if_false] at hcount
      exact ⟨hget, hcontained, by omega⟩
  · intro h
    cases e with
    | addStep step =>
      obtain ⟨hget, hcontained, hcount⟩ := h
      exact ⟨hget, ⟨hcontained, nofun⟩, hcount⟩
    | openScope =>
      cases k with
      | zero => exact absurd h id
      | succ k =>
        obtain ⟨hget, hcontained, hcount⟩ := h
        refine ⟨hget, ⟨hcontained, nofun⟩, ?_⟩
        simp only [isOpening, isClosing, if_true, Bool.false_eq_true, if_false]
        omega
    | closeScope =>
      obtain ⟨hget, hcontained, hcount⟩ := h
      refine ⟨hget, ⟨hcontained, fun _ => by omega⟩, ?_⟩
      simp only [isOpening, isClosing, if_true, Bool.false_eq_true, if_false]
      omega

/-- The `k`-th bracket of the stack is the open one with just `k` open brackets inside it. -/
theorem openStack_getElem?_iff (es : List Event) (k i : Nat) :
    (openStack es)[k]? = some i ↔ OpenWith es k i := by
  induction es using List.reverseRecOn generalizing k with
  | nil => simp [openStack, OpenWith]
  | append_singleton es e ih =>
    rw [openStack_append_singleton]
    by_cases hlt : i < es.length
    · rw [openWith_append_of_lt hlt]
      have hne : es.length ≠ i := by omega
      cases e with
      | addStep step => exact ih k
      | openScope =>
        cases k with
        | zero => simp [stackStep, hne]
        | succ k => exact ih k
      | closeScope =>
        rw [stackStep, List.getElem?_tail]
        exact ih (k + 1)
    · -- of the brackets from before, none stands at `i`
      have hold : ∀ n : Nat, (openStack es)[n]? ≠ some i := by
        intro n hn
        exact hlt (lt_of_mem_openStack (List.mem_of_getElem? hn))
      by_cases hself : i = es.length
      · subst hself
        rw [openWith_append_self]
        cases e with
        | addStep step => simp [stackStep, hold]
        | openScope => cases k <;> simp [stackStep, hold]
        | closeScope => simp [stackStep, hold]
      · have hout : ¬ OpenWith (es ++ [e]) k i := by
          intro h
          have hlen := h.lt_length
          rw [List.length_append, List.length_singleton] at hlen
          omega
        cases e with
        | addStep step => simp [stackStep, hold, hout]
        | openScope =>
          have hne : es.length ≠ i := fun h => hself h.symm
          cases k <;> simp [stackStep, hold, hout, hne]
        | closeScope => simp [stackStep, hold, hout]

/-! ### Brackets by the stack -/

theorem between_take : between (es.take j) i j = between es i j := by
  simp [between, List.take_take]

theorem openWith_take (hj : j ≤ es.length) :
    OpenWith (es.take j) k i ↔ i < j ∧ es[i]? = some .openScope ∧ Contained (between es i j) ∧
      openings (between es i j) = closings (between es i j) + k := by
  have hlen : (es.take j).length = j := by rw [List.length_take, Nat.min_eq_left hj]
  unfold OpenWith
  rw [hlen, between_take]
  by_cases hlt : i < j
  · simp [List.getElem?_take_of_lt hlt, hlt]
  · have hout : (es.take j)[i]? = none := List.getElem?_eq_none (by omega)
    constructor
    · intro h
      rw [hout] at h
      cases h.1
    · intro h
      exact absurd h.1 hlt

/-- The brackets open before a place are those on the stack there. -/
theorem openAt_iff (hj : j ≤ es.length) : OpenAt es i j ↔ i ∈ openStack (es.take j) := by
  rw [List.mem_iff_getElem?]
  simp only [openStack_getElem?_iff, openWith_take hj]
  constructor
  · intro h
    obtain ⟨hlt, hget, hcontained⟩ := h
    have hle := hcontained.le
    exact ⟨openings (between es i j) - closings (between es i j), hlt, hget, hcontained, by omega⟩
  · intro h
    obtain ⟨k, hlt, hget, hcontained, _⟩ := h
    exact ⟨hlt, hget, hcontained⟩

theorem openAt_length_iff : OpenAt es i es.length ↔ i ∈ openStack es := by
  rw [openAt_iff (Nat.le_refl _), List.take_length]

/-- A closing bracket answers the bracket on top of the stack. -/
theorem paired_iff :
    Paired es i j ↔ es[j]? = some .closeScope ∧ (openStack (es.take j)).head? = some i := by
  by_cases hj : j < es.length
  · rw [List.head?_eq_getElem?, openStack_getElem?_iff, openWith_take (Nat.le_of_lt hj)]
    unfold Paired
    constructor
    · intro h
      obtain ⟨hlt, hget, hclose, hcontained, hcount⟩ := h
      exact ⟨hclose, hlt, hget, hcontained, hcount⟩
    · intro h
      obtain ⟨hclose, hlt, hget, hcontained, hcount⟩ := h
      exact ⟨hlt, hget, hclose, hcontained, hcount⟩
  · have hout : es[j]? = none := List.getElem?_eq_none (by omega)
    simp [Paired, hout]

/-- Below a bracket, the stack is what it was when the bracket was opened. -/
theorem openStack_drop (h : (openStack es)[k]? = some i) :
    (openStack es).drop (k + 1) = openStack (es.take i) := by
  induction es using List.reverseRecOn generalizing k with
  | nil => simp [openStack] at h
  | append_singleton es e ih =>
    rw [openStack_append_singleton] at h ⊢
    have htake : i ≤ es.length → (es ++ [e]).take i = es.take i :=
      fun hi => List.take_append_of_le_length hi
    have hold : ∀ n : Nat, (openStack es)[n]? = some i → i ≤ es.length :=
      fun n hn => Nat.le_of_lt (lt_of_mem_openStack (List.mem_of_getElem? hn))
    cases e with
    | addStep step =>
      rw [htake (hold k h)]
      exact ih h
    | openScope =>
      cases k with
      | zero =>
        obtain rfl : es.length = i := by simpa [stackStep] using h
        simp [stackStep]
      | succ k =>
        rw [htake (hold k h)]
        exact ih h
    | closeScope =>
      rw [stackStep, List.getElem?_tail] at h
      rw [htake (hold (k + 1) h), ← ih h, stackStep, List.drop_tail]

/-- The scopes open at a place are still open at the end exactly when the stack there is the lower
    part of the stack at the end. -/
theorem openStack_suffix_iff (hj : j ≤ es.length) :
    openStack (es.take j) <:+ openStack es ↔ ∀ i ∈ openStack (es.take j), i ∈ openStack es := by
  constructor
  · intro h i hi
    exact h.subset hi
  · intro h
    cases hs : openStack (es.take j) with
    | nil => exact List.nil_suffix
    | cons i below =>
      have hij : i < j := by
        have hmem : i ∈ openStack (es.take j) := by simp [hs]
        have hlt := lt_of_mem_openStack hmem
        rw [List.length_take] at hlt
        omega
      obtain ⟨k, hk⟩ := List.mem_iff_getElem?.1 (h i (by simp [hs]))
      -- both stacks go on below `i` as the stack did when `i` was opened
      have htop : (openStack (es.take j))[0]? = some i := by simp [hs]
      have hbelow : below = openStack (es.take i) := by
        have hdrop := openStack_drop htop
        simpa [hs, List.take_take, Nat.min_eq_left (Nat.le_of_lt hij)] using hdrop
      have hend : (openStack es).drop k = i :: below := by
        obtain ⟨hlt, hget⟩ := List.getElem?_eq_some_iff.mp hk
        rw [List.drop_eq_getElem_cons hlt, hget, openStack_drop hk, hbelow]
      rw [← hend]
      exact List.drop_suffix k _

/-- The same scopes are open at a place and at the end exactly when the stacks are equal. -/
theorem openStack_eq_iff (hj : j ≤ es.length) :
    openStack (es.take j) = openStack es ↔
      ∀ i, i ∈ openStack (es.take j) ↔ i ∈ openStack es := by
  constructor
  · intro h i
    rw [h]
  · intro h
    have hsuffix := (openStack_suffix_iff hj).mpr fun i hi => (h i).mp hi
    cases hs : openStack es with
    | nil =>
      rw [hs] at hsuffix
      exact List.suffix_nil.mp hsuffix
    | cons i below =>
      -- the top of the stack at the end was open at the place, with all that is below it
      obtain ⟨upper, hupper⟩ := hsuffix
      have hi : i ∈ openStack (es.take j) := (h i).mpr (by simp [hs])
      cases upper with
      | nil => rw [← hs, ← hupper, List.nil_append]
      | cons i' upper =>
        exfalso
        rw [hs, List.cons_append, List.cons.injEq] at hupper
        obtain ⟨rfl, hupper⟩ := hupper
        have htop : (openStack es)[0]? = some i' := by simp [hs]
        have hmem : i' ∈ openStack (es.take i') := by
          have hdrop := openStack_drop htop
          rw [← hdrop, hs, List.drop_succ_cons, List.drop_zero, ← hupper]
          exact List.mem_append_right _ hi
        have hlt := lt_of_mem_openStack hmem
        rw [List.length_take] at hlt
        omega

/-! ### Numbers of steps -/

variable {n : Nat}

theorem AddedAt.lt_length (h : AddedAt es n k) : k < es.length := by
  obtain ⟨⟨step, hstep⟩, _⟩ := h
  exact (List.getElem?_eq_some_iff.mp hstep).1

theorem stepCount_take_succ (hk : es[k]? = some e) :
    stepCount (es.take (k + 1)) = stepCount (es.take k) + if isAddition e then 1 else 0 := by
  rw [List.take_add_one, hk, Option.toList_some, stepCount_append, stepCount_singleton]

/-- The steps added from one place on and before another one are those with the numbers between the
    two counts. -/
theorem exists_addedAt_iff (hij : i ≤ j) (hj : j ≤ es.length) :
    (∃ k, i ≤ k ∧ k < j ∧ AddedAt es n k) ↔
      stepCount (es.take i) < n ∧ n ≤ stepCount (es.take j) := by
  induction hij with
  | refl =>
    constructor
    · intro h
      obtain ⟨k, _, _, _⟩ := h
      omega
    · intro h
      omega
  | @step j hij ih =>
    have hget : es[j]? = some es[j] := List.getElem?_eq_getElem hj
    rw [stepCount_take_succ hget]
    have hmono : stepCount (es.take i) ≤ stepCount (es.take j) :=
      ((List.take_prefix_take_left hij).sublist).countP_le
    have hnew : AddedAt es n j ↔ isAddition es[j] = true ∧ n = stepCount (es.take j) + 1 := by
      unfold AddedAt
      rw [hget]
      cases es[j] <;> simp [isAddition]
    constructor
    · intro h
      obtain ⟨k, hik, hkj, hadd⟩ := h
      rcases Nat.lt_succ_iff_lt_or_eq.mp hkj with hlt | rfl
      · have hold := (ih (by omega)).mp ⟨k, hik, hlt, hadd⟩
        omega
      · obtain ⟨hkind, rfl⟩ := hnew.mp hadd
        rw [if_pos hkind]
        omega
    · intro h
      obtain ⟨hlo, hhi⟩ := h
      by_cases hle : n ≤ stepCount (es.take j)
      · obtain ⟨k, hik, hkj, hadd⟩ := (ih (by omega)).mpr ⟨hlo, hle⟩
        exact ⟨k, hik, by omega, hadd⟩
      · split at hhi
        · next hadd => exact ⟨j, hij, Nat.lt_succ_self j, hnew.mpr ⟨hadd, by omega⟩⟩
        · omega

theorem Paired.left_lt (h : Paired es i j) : i < es.length :=
  (List.getElem?_eq_some_iff.mp h.2.1).1

theorem Paired.right_lt (h : Paired es i j) : j < es.length :=
  (List.getElem?_eq_some_iff.mp h.2.2.1).1

/-- Between a pair of brackets, the steps are those with the numbers between the two counts. -/
theorem Paired.exists_addedAt_iff (h : Paired es i j) :
    (∃ k, i < k ∧ k < j ∧ AddedAt es n k) ↔
      stepCount (es.take i) < n ∧ n ≤ stepCount (es.take j) := by
  have hcount : stepCount (es.take (i + 1)) = stepCount (es.take i) := by
    rw [stepCount_take_succ h.2.1]
    rfl
  rw [← hcount]
  exact Log.exists_addedAt_iff h.1 (Nat.le_of_lt h.right_lt)

/-! ### Where citations arise -/

/-- The citation arises while exactly the brackets of `stack` are open. -/
def Arises (es : List Event) (stack : List Nat) : Citation → Prop
  | .step n => ∃ k, AddedAt es n k ∧ openStack (es.take k) = stack
  | .subproof a b => ∃ i j, Paired es i j ∧ stepCount (es.take i) < stepCount (es.take j) ∧
      a = stepCount (es.take i) + 1 ∧ b = stepCount (es.take j) ∧ openStack (es.take i) = stack

theorem visible_step_iff :
    Visible es (.step n) ↔ ∃ stack, stack <:+ openStack es ∧ Arises es stack (.step n) := by
  constructor
  · intro h
    obtain ⟨k, hadd, hopen⟩ := h
    have hk := Nat.le_of_lt hadd.lt_length
    refine ⟨openStack (es.take k), (openStack_suffix_iff hk).mpr ?_, k, hadd, rfl⟩
    intro i hi
    exact openAt_length_iff.mp (hopen i ((openAt_iff hk).mpr hi))
  · intro h
    obtain ⟨_, hsuffix, k, hadd, rfl⟩ := h
    have hk := Nat.le_of_lt hadd.lt_length
    refine ⟨k, hadd, ?_⟩
    intro i hi
    exact openAt_length_iff.mpr (hsuffix.subset ((openAt_iff hk).mp hi))

theorem visible_subproof_iff {a b : Nat} :
    Visible es (.subproof a b) ↔ Arises es (openStack es) (.subproof a b) := by
  constructor
  · intro h
    obtain ⟨i, j, hpair, ⟨n, hsome⟩, hrange, hopen⟩ := h
    have hlt := hpair.exists_addedAt_iff.mp hsome
    -- two descriptions of the same numbers, which are not empty, have the same ends
    simp only [hpair.exists_addedAt_iff] at hrange
    refine ⟨i, j, hpair, by omega, ?_, ?_, (openStack_eq_iff (Nat.le_of_lt hpair.left_lt)).mpr ?_⟩
    · have hfirst := hrange (stepCount (es.take i) + 1)
      have ha := hrange a
      omega
    · have hlast := hrange (stepCount (es.take j))
      have hb := hrange b
      omega
    · intro m
      rw [← openAt_iff (Nat.le_of_lt hpair.left_lt), hopen, openAt_length_iff]
  · intro h
    obtain ⟨i, j, hpair, hlt, rfl, rfl, hstack⟩ := h
    refine ⟨i, j, hpair, ?_, ?_, ?_⟩
    · exact ⟨_, hpair.exists_addedAt_iff.mpr ⟨Nat.lt_succ_self _, hlt⟩⟩
    · intro n
      rw [hpair.exists_addedAt_iff]
      exact Iff.rfl
    · intro m
      rw [openAt_iff (Nat.le_of_lt hpair.left_lt), openAt_length_iff, hstack]

theorem addedAt_append_singleton :
    AddedAt (es ++ [e]) n k ↔
      AddedAt es n k ∨ k = es.length ∧ isAddition e = true ∧ n = stepCount es + 1 := by
  unfold AddedAt
  rcases Nat.lt_trichotomy k es.length with hlt | rfl | hgt
  · have hne : k ≠ es.length := by omega
    simp [List.getElem?_append_left hlt, List.take_append_of_le_length (Nat.le_of_lt hlt), hne]
  · cases e <;> simp [isAddition]
  · have hout : (es ++ [e])[k]? = none := List.getElem?_eq_none (by simp; omega)
    have hout' : es[k]? = none := List.getElem?_eq_none (by omega)
    have hne : k ≠ es.length := by omega
    simp [hout, hout', hne]

theorem paired_append_singleton :
    Paired (es ++ [e]) i j ↔
      Paired es i j ∨ j = es.length ∧ e = .closeScope ∧ (openStack es).head? = some i := by
  rw [paired_iff, paired_iff]
  rcases Nat.lt_trichotomy j es.length with hlt | rfl | hgt
  · have hne : j ≠ es.length := by omega
    simp [List.getElem?_append_left hlt, List.take_append_of_le_length (Nat.le_of_lt hlt), hne]
  · simp
  · have hout : (es ++ [e])[j]? = none := List.getElem?_eq_none (by simp; omega)
    have hout' : es[j]? = none := List.getElem?_eq_none (by omega)
    have hne : j ≠ es.length := by omega
    simp [hout, hout', hne]

/-- The citation that an event brings about, and the brackets open around it: a new step, or the
    scope that is closed, if it has steps. -/
def BroughtAbout (es : List Event) (stack : List Nat) (c : Citation) : Event → Prop
  | .addStep _ => c = .step (stepCount es + 1) ∧ openStack es = stack
  | .openScope => False
  | .closeScope => ∃ i, openStack es = i :: stack ∧ stepCount (es.take i) < stepCount es ∧
      c = .subproof (stepCount (es.take i) + 1) (stepCount es)

theorem arises_step_append_singleton {stack : List Nat} :
    Arises (es ++ [e]) stack (.step n) ↔
      Arises es stack (.step n) ∨ BroughtAbout es stack (.step n) e := by
  have hnew : BroughtAbout es stack (.step n) e ↔
      isAddition e = true ∧ n = stepCount es + 1 ∧ openStack es = stack := by
    cases e <;> simp [BroughtAbout, isAddition]
  simp only [Arises, addedAt_append_singleton, hnew]
  constructor
  · intro h
    obtain ⟨k, hadd | ⟨rfl, hkind, hn⟩, hstack⟩ := h
    · rw [List.take_append_of_le_length (Nat.le_of_lt hadd.lt_length)] at hstack
      exact .inl ⟨k, hadd, hstack⟩
    · rw [List.take_left] at hstack
      exact .inr ⟨hkind, hn, hstack⟩
  · intro h
    rcases h with ⟨k, hadd, hstack⟩ | ⟨hkind, hn, hstack⟩
    · refine ⟨k, .inl hadd, ?_⟩
      rw [List.take_append_of_le_length (Nat.le_of_lt hadd.lt_length)]
      exact hstack
    · refine ⟨es.length, .inr ⟨rfl, hkind, hn⟩, ?_⟩
      rw [List.take_left]
      exact hstack

theorem arises_subproof_append_singleton {stack : List Nat} {a b : Nat} :
    Arises (es ++ [e]) stack (.subproof a b) ↔
      Arises es stack (.subproof a b) ∨ BroughtAbout es stack (.subproof a b) e := by
  have htake : ∀ {k}, k < es.length → (es ++ [e]).take k = es.take k :=
    fun hk => List.take_append_of_le_length (Nat.le_of_lt hk)
  simp only [Arises, paired_append_singleton]
  constructor
  · intro h
    obtain ⟨i, j, hpair | ⟨rfl, rfl, hhead⟩, hlt, ha, hb, hstack⟩ := h
    · rw [htake hpair.left_lt] at hlt ha hstack
      rw [htake hpair.right_lt] at hlt hb
      exact .inl ⟨i, j, hpair, hlt, ha, hb, hstack⟩
    · -- the event answers the bracket on top of the stack
      obtain ⟨below, hbelow⟩ := List.head?_eq_some_iff.mp hhead
      have htop : (openStack es)[0]? = some i := by simp [hbelow]
      have hdrop := openStack_drop htop
      rw [htake (lt_of_mem_openStack (List.mem_of_head? hhead))] at hlt ha hstack
      rw [List.take_left] at hlt hb
      refine .inr ⟨i, ?_, hlt, by rw [ha, hb]⟩
      rw [← hstack, ← hdrop, hbelow, List.drop_succ_cons, List.drop_zero]
  · intro h
    rcases h with ⟨i, j, hpair, hlt, ha, hb, hstack⟩ | hnew
    · refine ⟨i, j, .inl hpair, ?_⟩
      rw [htake hpair.left_lt, htake hpair.right_lt]
      exact ⟨hlt, ha, hb, hstack⟩
    · cases e with
      | addStep step => cases hnew.1
      | openScope => exact absurd hnew id
      | closeScope =>
        obtain ⟨i, hopen, hlt, hc⟩ := hnew
        have htop : (openStack es)[0]? = some i := by simp [hopen]
        have hdrop := openStack_drop htop
        rw [hopen, List.drop_succ_cons, List.drop_zero] at hdrop
        injection hc with ha hb
        refine ⟨i, es.length, .inr ⟨rfl, rfl, by simp [hopen]⟩, ?_⟩
        rw [htake (lt_of_mem_openStack (List.mem_of_getElem? htop)), List.take_left]
        exact ⟨hlt, ha, hb, hdrop.symm⟩

/-- An event adds to the citations what it brings about. -/
theorem arises_append_singleton {stack : List Nat} {c : Citation} :
    Arises (es ++ [e]) stack c ↔ Arises es stack c ∨ BroughtAbout es stack c e := by
  cases c with
  | step n => exact arises_step_append_singleton
  | subproof a b => exact arises_subproof_append_singleton

/-- Brackets are open around a citation only if they are among the events. -/
theorem Arises.lt_length {stack : List Nat} {c : Citation} (h : Arises es stack c)
    (hi : i ∈ stack) : i < es.length := by
  have hplace : ∀ {k}, i ∈ openStack (es.take k) → i < es.length := by
    intro k hmem
    have hlt := lt_of_mem_openStack hmem
    rw [List.length_take] at hlt
    omega
  cases c with
  | step n =>
    obtain ⟨k, _, rfl⟩ := h
    exact hplace hi
  | subproof a b =>
    obtain ⟨i', j, _, _, _, _, rfl⟩ := h
    exact hplace hi

end NaturalDeduction.Log
