import NaturalDeduction.Proofs.Parsing.Exact

/-! # Reading without bounds

    The bounds on the depth of nesting and on the number of members are never
    reached: a larger bound than the number of tokens gives the same result. So
    a term, a premise and a list of members are read by the same rules at every
    place of a text (`anyTerm`, `anyPremise`, `members`), and each reader
    succeeds or fails as its parts do.
-/

namespace NaturalDeduction

namespace Reader

open Grammar

variable {α : Type} {kind : SymbolKind} {f : Formula} {ts us rest : List Token} {e : ParseFailure}

/-! ### Bounds do not matter -/

theorem Sound.length_le {reader : Reader α} {derives : List Token → α → Prop} {x : α}
    (h : Sound reader derives) (hread : reader ts = .ok (x, rest)) : rest.length ≤ ts.length := by
  obtain ⟨us, rfl, _⟩ := h _ _ _ hread
  simp

/-- Only terms that are no longer than the tokens are read for an expression. -/
theorem expressionOf_congr {term term' : Reader Formula} (hsound : Sound term (Derives kind .term))
    (h : ∀ us, us.length ≤ ts.length → term us = term' us) :
    expressionOf term ts = expressionOf term' ts := by
  unfold expressionOf
  rw [← h ts (Nat.le_refl _)]
  refine Except.bind_congr ?_
  rintro ⟨left, rest⟩ hleft
  have hle := hsound.length_le hleft
  dsimp only
  split
  · next name lexeme p rest' =>
    rw [h rest' (by simp only [List.length_cons] at hle; omega)]
  · rfl

theorem term_depth {depth depth' : Nat} (h : ts.length ≤ depth) (h' : ts.length ≤ depth') :
    term kind depth ts = term kind depth' ts := by
  induction depth generalizing depth' ts with
  | zero =>
    obtain rfl := List.length_eq_zero_iff.mp (Nat.le_zero.mp h)
    cases depth' <;> rfl
  | succ depth ih =>
    cases ts with
    | nil => cases depth' <;> rfl
    | cons t us =>
      obtain _ | depth' := depth'
      · simp at h'
      simp only [List.length_cons, Nat.add_le_add_iff_right] at h h'
      have hexpression :
          expressionOf (term kind depth) us = expressionOf (term kind depth') us := by
        refine expressionOf_congr (term_sound depth) ?_
        intro vs hvs
        exact ih (by omega) (by omega)
      -- the first token says which rule is used
      obtain ⟨tokenKind, lexeme, p⟩ := t
      cases tokenKind with
      | operator op =>
        obtain ⟨name, fixity⟩ := op
        cases fixity with
        | prefixed => simp only [term, ih h h']
        | infixed => rfl
        | postfixed => rfl
      | opening shape => simp only [term, hexpression]
      | _ => rfl

/-- Only premises that are no longer than the tokens are read for a list. -/
theorem separated_congr {member member' : Reader α} {derives : List Token → α → Prop}
    (hsound : Sound member derives) (h : ∀ us, us.length ≤ ts.length → member us = member' us)
    (bound : Nat) : separated member bound ts = separated member' bound ts := by
  induction bound generalizing ts with
  | zero =>
    unfold separated
    rw [h ts (Nat.le_refl _)]
  | succ bound ih =>
    unfold separated
    rw [← h ts (Nat.le_refl _)]
    refine Except.bind_congr ?_
    rintro ⟨x, rest⟩ hx
    have hle := hsound.length_le hx
    dsimp only
    split
    · next lexeme p rest' =>
      have hrest : separated member bound rest' = separated member' bound rest' := by
        refine ih ?_
        intro us hus
        exact h us (by simp only [List.length_cons] at hle; omega)
      rw [hrest]
    · rfl

theorem separated_bound {member : Reader α} {derives : List Token → α → Prop}
    (hsound : Sound member derives) {bound bound' : Nat} (h : ts.length ≤ bound)
    (h' : ts.length ≤ bound') : separated member bound ts = separated member bound' ts := by
  -- without tokens, nothing is left over after a member
  have hempty : ∀ bound, separated member bound [] = separated member 0 [] := by
    intro bound
    cases bound with
    | zero => rfl
    | succ bound =>
      unfold separated
      refine Except.bind_congr ?_
      rintro ⟨x, rest⟩ hx
      obtain rfl := List.length_eq_zero_iff.mp (Nat.le_zero.mp (hsound.length_le hx))
      rfl
  induction bound generalizing bound' ts with
  | zero =>
    obtain rfl := List.length_eq_zero_iff.mp (Nat.le_zero.mp h)
    exact (hempty bound').symm
  | succ bound ih =>
    obtain _ | bound' := bound'
    · obtain rfl := List.length_eq_zero_iff.mp (Nat.le_zero.mp h')
      exact hempty _
    unfold separated
    refine Except.bind_congr ?_
    rintro ⟨x, rest⟩ hx
    have hle := hsound.length_le hx
    dsimp only
    split
    · next lexeme p rest' =>
      simp only [List.length_cons] at hle
      have hrest : separated member bound rest' = separated member bound' rest' :=
        ih (by omega) (by omega)
      rw [hrest]
    · rfl

theorem length_le_of_premisesOf {premise : Reader Form} {derives : List Token → Form → Prop}
    {ps : List Form} (hsound : Sound premise derives)
    (h : premisesOf premise ts = .ok (ps, rest)) : rest.length ≤ ts.length := by
  unfold premisesOf at h
  split at h
  · cases h
    exact Nat.le_refl _
  · exact (separated_sound hsound _).length_le h

theorem sequentOf_congr {premise premise' : Reader Form} {derives : List Token → Form → Prop}
    (hsound : Sound premise derives) (h : ∀ us, us.length ≤ ts.length → premise us = premise' us) :
    sequentOf kind premise ts = sequentOf kind premise' ts := by
  have hpremises : premisesOf premise ts = premisesOf premise' ts := by
    unfold premisesOf
    split
    · rfl
    · exact separated_congr hsound h _
  unfold sequentOf
  rw [hpremises]

theorem premise_depth {depth depth' : Nat} (h : ts.length ≤ depth) (h' : ts.length ≤ depth') :
    premise kind depth ts = premise kind depth' ts := by
  induction depth generalizing depth' ts with
  | zero =>
    obtain rfl := List.length_eq_zero_iff.mp (Nat.le_zero.mp h)
    cases depth' <;> rfl
  | succ depth ih =>
    cases ts with
    | nil => cases depth' <;> rfl
    | cons t us =>
      obtain _ | depth' := depth'
      · simp at h'
      simp only [List.length_cons, Nat.add_le_add_iff_right] at h h'
      have hsequent : sequentOf kind (premise kind depth) us =
          sequentOf kind (premise kind depth') us := by
        refine sequentOf_congr (premise_sound depth) ?_
        intro vs hvs
        exact ih (by omega) (by omega)
      -- only a sequent in brackets goes one level down
      obtain ⟨tokenKind, lexeme, p⟩ := t
      unfold premise
      cases tokenKind with
      | opening shape => simp only [hsequent]
      | _ => rfl

/-! ### Readers with no bound -/

/-- Reads a term. -/
def anyTerm (kind : SymbolKind) : Reader Formula := fun ts => term kind ts.length ts

/-- Reads a premise. -/
def anyPremise (kind : SymbolKind) : Reader Form := fun ts => premise kind ts.length ts

/-- Reads members with commas between them. -/
def members (member : Reader α) : Reader (List α) := fun ts => separated member ts.length ts

theorem expression_eq (kind : SymbolKind) (ts : List Token) :
    expression kind ts = expressionOf (anyTerm kind) ts :=
  expressionOf_congr (term_sound _) fun _ hus => term_depth hus (Nat.le_refl _)

theorem sequent_eq (kind : SymbolKind) (ts : List Token) :
    sequent kind ts = sequentOf kind (anyPremise kind) ts :=
  sequentOf_congr (premise_sound _) fun _ hus => premise_depth hus (Nat.le_refl _)

theorem anyPremise_sound : Sound (anyPremise kind) (DerivesPremise kind) :=
  fun ts => premise_sound ts.length ts

theorem members_sound {member : Reader α} {derives : List Token → α → Prop}
    (hsound : Sound member derives) : Sound (members member) (Listed derives) :=
  fun ts => separated_sound hsound ts.length ts

/-! ### Brackets and turnstiles -/

/-- There is a first token with a property, or none. -/
theorem head_cases (property : Token → Prop) (ts : List Token) :
    (∀ t ∈ ts.head?, ¬ property t) ∨ ∃ t us, ts = t :: us ∧ property t := by
  cases ts with
  | nil => exact .inl (by simp)
  | cons t us =>
    by_cases ht : property t
    · exact .inr ⟨t, us, rfl, ht⟩
    · exact .inl (by simpa using ht)

/-- A kind that no pattern finds at the head is not that of the first token. -/
theorem head_kind_ne {tokenKind : TokenKind}
    (h : ∀ lexeme p rest, ts ≠ ⟨tokenKind, lexeme, p⟩ :: rest) :
    ∀ t ∈ ts.head?, t.kind ≠ tokenKind := by
  rintro t ht rfl
  obtain ⟨rest, rfl⟩ := List.head?_eq_some_iff.mp ht
  exact h t.lexeme t.position rest rfl

theorem close_eq_error_iff {shape : Bracket} :
    close shape ts = .error e ↔
      (∀ t ∈ ts.head?, t.kind ≠ .closing shape) ∧ e = ⟨s!"'{shape.closer}' expected.", ts⟩ := by
  unfold close
  split
  · next shape' lexeme p rest =>
    by_cases hshape : shape' = shape
    · simp [hshape]
    · simpa [hshape] using eq_comm
  · next hnot =>
    constructor
    · intro h
      exact ⟨head_kind_ne (hnot shape), (Except.error.inj h).symm⟩
    · rintro ⟨-, rfl⟩
      rfl

theorem turnstile_eq_error_iff :
    turnstile ts = .error e ↔
      (∀ t ∈ ts.head?, t.kind ≠ .entails) ∧ e = ⟨"'|-' expected.", ts⟩ := by
  unfold turnstile
  split
  · simp
  · next hnot =>
    constructor
    · intro h
      exact ⟨head_kind_ne hnot, (Except.error.inj h).symm⟩
    · rintro ⟨-, rfl⟩
      rfl

/-- What stands before a closing bracket fails, or the bracket does. -/
theorem closed_eq_error_iff {β : Type} {reader : Reader α} {shape : Bracket}
    (result : α → List Token → β × List Token) :
    (do
      let (x, rest) ← reader ts
      let ((), rest') ← close shape rest
      return result x rest' : Except ParseFailure (β × List Token)) = .error e ↔
      reader ts = .error e ∨
        ∃ x rest, reader ts = .ok (x, rest) ∧ close shape rest = .error e := by
  refine Except.bind_eq_error.trans (or_congr_right ?_)
  constructor
  · rintro ⟨⟨x, rest⟩, hread, h⟩
    rcases Except.bind_eq_error.mp h with hclose | ⟨a, -, hresult⟩
    · exact ⟨x, rest, hread, hclose⟩
    · cases hresult
  · rintro ⟨x, rest, hread, hclose⟩
    exact ⟨(x, rest), hread, Except.bind_eq_error.mpr (.inl hclose)⟩

/-! ### Terms and expressions -/

/-- A term can start with a prefix operator, an opening bracket or a symbol. -/
inductive StartsTerm (t : Token) : Prop where
  | prefixed {name : String} : t.kind = .operator ⟨name, .prefixed⟩ → StartsTerm t
  | opening {shape : Bracket} : t.kind = .opening shape → StartsTerm t
  | symbol : t.kind = .symbol → StartsTerm t

theorem anyTerm_of_not_startsTerm (h : ∀ t ∈ ts.head?, ¬ StartsTerm t) :
    anyTerm kind ts = .error ⟨"Term expected.", ts⟩ := by
  cases ts with
  | nil => rfl
  | cons t us =>
    have ht := h t rfl
    obtain ⟨tokenKind, lexeme, p⟩ := t
    cases tokenKind with
    | operator op =>
      obtain ⟨name, fixity⟩ := op
      cases fixity with
      | prefixed => exact absurd (.prefixed rfl) ht
      | infixed => rfl
      | postfixed => rfl
    | opening shape => exact absurd (.opening rfl) ht
    | symbol => exact absurd (.symbol rfl) ht
    | _ => rfl

section

variable {t : Token} {name : String} {shape : Bracket}

theorem anyTerm_prefixed_eq_error_iff (ht : t.kind = .operator ⟨name, .prefixed⟩) :
    anyTerm kind (t :: us) = .error e ↔ anyTerm kind us = .error e := by
  obtain ⟨_, lexeme, p⟩ := t
  cases ht
  refine Except.bind_eq_error.trans (or_iff_left ?_)
  rintro ⟨a, -, h⟩
  cases h

theorem anyTerm_opening_eq_error_iff (ht : t.kind = .opening shape) :
    anyTerm kind (t :: us) = .error e ↔ expression kind us = .error e ∨
      ∃ f rest, expression kind us = .ok (f, rest) ∧ close shape rest = .error e := by
  obtain ⟨_, lexeme, p⟩ := t
  cases ht
  exact closed_eq_error_iff postfixes

theorem anyTerm_symbol_ne_error (ht : t.kind = .symbol) : anyTerm kind (t :: us) ≠ .error e := by
  obtain ⟨_, lexeme, p⟩ := t
  cases ht
  intro h
  cases h

end

/-- Nothing is left to a term that it would still take up. -/
theorem postfixes_notNext (f : Formula) (ts : List Token) :
    NotNext .postfixed (postfixes f ts).2 := by
  fun_induction postfixes f ts with
  | case1 f name lexeme p ts ih => exact ih
  | case2 f ts hnot =>
    -- a postfix operator at the head would have been taken up
    exact fun t ht name => head_kind_ne (hnot name) t ht

theorem term_notNext {depth : Nat} (h : term kind depth ts = .ok (f, rest)) :
    NotNext .postfixed rest := by
  induction depth generalizing ts f with
  | zero => cases h
  | succ depth ih =>
    unfold term at h
    -- an operand ends where its operator does, and a primary after its postfix operators
    split at h
    · obtain ⟨⟨operand, rest₁⟩, hoperand, hresult⟩ := Except.bind_eq_ok.mp h
      cases hresult
      exact ih hoperand
    · obtain ⟨⟨inner, rest₁⟩, -, hnext⟩ := Except.bind_eq_ok.mp h
      obtain ⟨⟨_, rest₂⟩, -, hresult⟩ := Except.bind_eq_ok.mp hnext
      have hrest : (postfixes inner rest₂).2 = rest := congrArg Prod.snd (Except.ok.inj hresult)
      exact hrest ▸ postfixes_notNext inner rest₂
    · next name p us =>
      have hrest : (postfixes _ us).2 = rest := congrArg Prod.snd (Except.ok.inj h)
      exact hrest ▸ postfixes_notNext _ us
    · cases h

/-- A term is read exactly if the tokens derive it and no postfix operator comes next. -/
theorem anyTerm_eq_ok_iff :
    anyTerm kind (us ++ rest) = .ok (f, rest) ↔
      Derives kind .term us f ∧ NotNext .postfixed rest := by
  constructor
  · intro h
    obtain ⟨vs, hvs, hterm⟩ := term_sound _ _ _ _ h
    obtain rfl := List.append_cancel_right hvs
    exact ⟨hterm, term_notNext h⟩
  · rintro ⟨hterm, hrest⟩
    exact readAs_of_derives hterm _ rest (by simp) hrest

theorem expression_eq_error_iff :
    expression kind ts = .error e ↔ anyTerm kind ts = .error e ∨
      ∃ left t name rest, anyTerm kind ts = .ok (left, t :: rest) ∧
        t.kind = .operator ⟨name, .infixed⟩ ∧ anyTerm kind rest = .error e := by
  rw [expression_eq]
  refine Except.bind_eq_error.trans (or_congr_right ?_)
  constructor
  · rintro ⟨⟨left, rest⟩, hleft, h⟩
    dsimp only at h
    split at h
    · next name lexeme p rest' =>
      rcases Except.bind_eq_error.mp h with hright | ⟨a, -, hresult⟩
      · exact ⟨left, _, name, rest', hleft, rfl, hright⟩
      · cases hresult
    · cases h
  · rintro ⟨left, ⟨_, lexeme, p⟩, name, rest, hleft, ht, hright⟩
    cases ht
    exact ⟨_, hleft, Except.bind_eq_error.mpr (.inl hright)⟩

/-- An expression is read in two ways: as a term that no infix operator comes after, or as two terms
    with an infix operator between them, whatever comes after. -/
theorem expression_read_iff :
    expression kind (us ++ rest) = .ok (f, rest) ↔
      (Derives kind .term us f ∧ Ends rest) ∨
        ∃ vs t ws name left right, us = vs ++ t :: ws ∧ f = .app ⟨name, .infixed⟩ [left, right] ∧
          Derives kind .term vs left ∧ t.kind = .operator ⟨name, .infixed⟩ ∧
            Derives kind .term ws right ∧ NotNext .postfixed rest := by
  rw [expression_eq]
  constructor
  · intro h
    obtain ⟨⟨left, rest₁⟩, hleft, hnext⟩ := Except.bind_eq_ok.mp h
    obtain ⟨vs, hvs, -⟩ := term_sound _ _ _ _ hleft
    rw [hvs] at hleft
    obtain ⟨hl, hpostfixed⟩ := anyTerm_eq_ok_iff.mp hleft
    dsimp only at hnext
    split at hnext
    · next name lexeme p rest₂ =>
      -- the second term ends where the expression does
      obtain ⟨⟨right, rest₃⟩, hright, hresult⟩ := Except.bind_eq_ok.mp hnext
      cases hresult
      obtain ⟨ws, rfl, -⟩ := term_sound _ _ _ _ hright
      obtain ⟨hr, hrest⟩ := anyTerm_eq_ok_iff.mp hright
      refine .inr ⟨vs, ⟨.operator ⟨name, .infixed⟩, lexeme, p⟩, ws, name, left, right, ?_, rfl, hl,
        rfl, hr, hrest⟩
      refine List.append_cancel_right (hvs.trans ?_)
      simp
    · next hnot =>
      cases hnext
      obtain rfl := List.append_cancel_right hvs
      exact .inl ⟨hl, hpostfixed, fun t ht name => head_kind_ne (hnot name) t ht⟩
  · rintro (⟨hterm, hrest⟩ | ⟨vs, t, ws, name, left, right, rfl, rfl, hl, ht, hr, hrest⟩)
    · rw [← expression_eq]
      exact expression_reads (.term hterm) rest hrest
    · obtain ⟨_, lexeme, p⟩ := t
      cases ht
      have hleft : anyTerm kind (vs ++ (⟨.operator ⟨name, .infixed⟩, lexeme, p⟩ :: (ws ++ rest))) =
          .ok (left, ⟨.operator ⟨name, .infixed⟩, lexeme, p⟩ :: (ws ++ rest)) :=
        anyTerm_eq_ok_iff.mpr ⟨hl, by simp⟩
      have hright : anyTerm kind (ws ++ rest) = .ok (right, rest) :=
        anyTerm_eq_ok_iff.mpr ⟨hr, hrest⟩
      rw [List.append_assoc]
      exact Except.bind_eq_ok.mpr ⟨_, hleft, Except.bind_eq_ok.mpr ⟨_, hright, rfl⟩⟩

/-! ### Lists -/

section

variable {member : Reader α} {derives : List Token → α → Prop}

theorem members_eq (hsound : Sound member derives) (ts : List Token) :
    members member ts = (do
      let (x, rest) ← member ts
      match rest with
      | ⟨.comma, _, _⟩ :: rest' =>
        let (xs, rest'') ← members member rest'
        return (x :: xs, rest'')
      | _ => return ([x], rest)) := by
  cases ts with
  | nil =>
    refine Except.bind_congr ?_
    rintro ⟨x, rest⟩ hx
    obtain rfl := List.length_eq_zero_iff.mp (Nat.le_zero.mp (hsound.length_le hx))
    rfl
  | cons t us =>
    refine Except.bind_congr ?_
    rintro ⟨x, rest⟩ hx
    have hle := hsound.length_le hx
    -- only a comma goes on with the list
    obtain _ | ⟨⟨tokenKind, lexeme, p⟩, rest'⟩ := rest
    · rfl
    · cases tokenKind with
      | comma =>
        simp only [List.length_cons] at hle
        have hrest : separated member us.length rest' = members member rest' :=
          separated_bound hsound (by omega) (Nat.le_refl _)
        simp only [hrest]
      | _ => rfl

theorem members_eq_error_iff (hsound : Sound member derives) :
    members member ts = .error e ↔ member ts = .error e ∨
      ∃ x t rest, member ts = .ok (x, t :: rest) ∧ t.kind = .comma ∧
        members member rest = .error e := by
  rw [members_eq hsound]
  refine Except.bind_eq_error.trans (or_congr_right ?_)
  constructor
  · rintro ⟨⟨x, rest⟩, hx, h⟩
    dsimp only at h
    split at h
    · next lexeme p rest' =>
      rcases Except.bind_eq_error.mp h with hrest | ⟨a, -, hresult⟩
      · exact ⟨x, _, rest', hx, rfl, hrest⟩
      · cases hresult
    · cases h
  · rintro ⟨x, ⟨_, lexeme, p⟩, rest, hx, ht, hrest⟩
    cases ht
    exact ⟨_, hx, Except.bind_eq_error.mpr (.inl hrest)⟩

theorem members_eq_ok_iff (hsound : Sound member derives) {xs : List α} :
    members member ts = .ok (xs, rest) ↔
      (∃ x, member ts = .ok (x, rest) ∧ NoComma rest ∧ xs = [x]) ∨
        ∃ x t rest₁ ys, member ts = .ok (x, t :: rest₁) ∧ t.kind = .comma ∧
          members member rest₁ = .ok (ys, rest) ∧ xs = x :: ys := by
  rw [members_eq hsound, Except.bind_eq_ok]
  constructor
  · rintro ⟨⟨x, rest₁⟩, hx, h⟩
    dsimp only at h
    split at h
    · next lexeme p rest₂ =>
      obtain ⟨⟨ys, rest₃⟩, hys, hresult⟩ := Except.bind_eq_ok.mp h
      cases hresult
      exact .inr ⟨x, _, rest₂, ys, hx, rfl, hys, rfl⟩
    · next hnot =>
      cases h
      exact .inl ⟨x, hx, head_kind_ne hnot, rfl⟩
  · rintro (⟨x, hx, hcomma, rfl⟩ | ⟨x, ⟨_, lexeme, p⟩, rest₁, ys, hx, ht, hys, rfl⟩)
    · refine ⟨_, hx, ?_⟩
      dsimp only
      split
      · next lexeme p rest' => exact absurd rfl (hcomma ⟨.comma, lexeme, p⟩ rfl)
      · rfl
    · cases ht
      exact ⟨_, hx, Except.bind_eq_ok.mpr ⟨_, hys, rfl⟩⟩

end

/-! ### Premises and sequents -/

/-- Reads a sequent and the bracket that closes it. -/
def nested (kind : SymbolKind) (shape : Bracket) : Reader Form := fun ts => do
  let (s, rest) ← sequent kind ts
  let ((), rest') ← close shape rest
  return (s.toForm, rest')

theorem nested_eq_error_iff {shape : Bracket} :
    nested kind shape ts = .error e ↔ sequent kind ts = .error e ∨
      ∃ s rest, sequent kind ts = .ok (s, rest) ∧ close shape rest = .error e :=
  closed_eq_error_iff fun (s : Sequent) rest => (s.toForm, rest)

theorem anyPremise_of_ok (h : expression kind ts = .ok (f, rest)) :
    anyPremise kind ts = .ok (.formula f, rest) := by
  unfold anyPremise premise
  rw [h]

/-- What is no expression but starts with a bracket is read as a sequent in the bracket. -/
theorem anyPremise_of_opening {t : Token} {shape : Bracket}
    (h : expression kind (t :: us) = .error e) (ht : t.kind = .opening shape) :
    anyPremise kind (t :: us) = nested kind shape us := by
  obtain ⟨_, lexeme, p⟩ := t
  cases ht
  unfold anyPremise premise
  rw [h]
  rfl

theorem anyPremise_of_not_opening (h : expression kind ts = .error e)
    (hnot : ∀ t ∈ ts.head?, ∀ shape, t.kind ≠ .opening shape) :
    anyPremise kind ts = .error ⟨"'(' expected.", ts⟩ := by
  unfold anyPremise premise
  rw [h]
  dsimp only
  split
  · next shape lexeme p us _ => exact absurd rfl (hnot _ rfl shape)
  · rfl

theorem premisesOf_of_entails {premise : Reader Form} {t : Token} (ht : t.kind = .entails) :
    premisesOf premise (t :: us) = .ok ([], t :: us) := by
  obtain ⟨_, lexeme, p⟩ := t
  cases ht
  rfl

theorem premisesOf_eq_members {premise : Reader Form} (h : ∀ t ∈ ts.head?, t.kind ≠ .entails) :
    premisesOf premise ts = members premise ts := by
  unfold premisesOf
  split
  · next lexeme p us => exact absurd rfl (h _ rfl)
  · rfl

theorem sequent_eq_error_iff :
    sequent kind ts = .error e ↔ premisesOf (anyPremise kind) ts = .error e ∨
      ∃ ps rest, premisesOf (anyPremise kind) ts = .ok (ps, rest) ∧
        (turnstile rest = .error e ∨
          ∃ t rest', rest = t :: rest' ∧ t.kind = .entails ∧
            members (expression kind) rest' = .error e) := by
  rw [sequent_eq]
  refine Except.bind_eq_error.trans (or_congr_right ?_)
  constructor
  · rintro ⟨⟨ps, rest⟩, hps, h⟩
    refine ⟨ps, rest, hps, ?_⟩
    rcases Except.bind_eq_error.mp h with hturnstile | ⟨⟨_, rest'⟩, hturnstile, hnext⟩
    · exact .inl hturnstile
    · obtain ⟨t, rfl, ht⟩ := turnstile_eq_ok.mp hturnstile
      rcases Except.bind_eq_error.mp hnext with hcs | ⟨a, -, hresult⟩
      · exact .inr ⟨t, rest', rfl, ht, hcs⟩
      · cases hresult
  · rintro ⟨ps, rest, hps, hturnstile | ⟨t, rest', rfl, ht, hcs⟩⟩
    · exact ⟨(ps, rest), hps, Except.bind_eq_error.mpr (.inl hturnstile)⟩
    · have hturnstile : turnstile (t :: rest') = .ok ((), rest') := turnstile_eq_ok.mpr ⟨t, rfl, ht⟩
      exact ⟨(ps, t :: rest'), hps, Except.bind_eq_error.mpr
        (.inr ⟨_, hturnstile, Except.bind_eq_error.mpr (.inl hcs)⟩)⟩

theorem sequent_read_iff {s : Sequent} :
    sequent kind ts = .ok (s, rest) ↔
      ∃ ps t rest' cs, premisesOf (anyPremise kind) ts = .ok (ps, t :: rest') ∧
        t.kind = .entails ∧ members (expression kind) rest' = .ok (cs, rest) ∧ s = ⟨ps, cs⟩ := by
  rw [sequent_eq]
  constructor
  · intro h
    obtain ⟨⟨ps, rest₁⟩, hps, hnext⟩ := Except.bind_eq_ok.mp h
    obtain ⟨⟨_, rest₂⟩, hturnstile, hnext'⟩ := Except.bind_eq_ok.mp hnext
    obtain ⟨⟨cs, rest₃⟩, hcs, hresult⟩ := Except.bind_eq_ok.mp hnext'
    cases hresult
    obtain ⟨t, rfl, ht⟩ := turnstile_eq_ok.mp hturnstile
    exact ⟨ps, t, rest₂, cs, hps, ht, hcs, rfl⟩
  · rintro ⟨ps, t, rest', cs, hps, ht, hcs, rfl⟩
    have hturnstile : turnstile (t :: rest') = .ok ((), rest') := turnstile_eq_ok.mpr ⟨t, rfl, ht⟩
    exact Except.bind_eq_ok.mpr ⟨_, hps, Except.bind_eq_ok.mpr ⟨_, hturnstile,
      Except.bind_eq_ok.mpr ⟨_, hcs, rfl⟩⟩⟩

end Reader

end NaturalDeduction
