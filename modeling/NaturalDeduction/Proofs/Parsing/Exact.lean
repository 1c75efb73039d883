import NaturalDeduction.Language.Horseshoe
import NaturalDeduction.Proofs.Except
import NaturalDeduction.Proofs.Parsing.Grammar

/-! # The readers read exactly the grammar

    * **Only the grammar**: the tokens that a reader uses up derive what it
      returns (`Sound`).
    * **All of the grammar**: tokens that derive something are read as that, and
      the reader stops right after them (`Reads`), if what comes next does not
      go on with them. A premise is read as an expression first; where the
      grammar has a sequent in brackets, that attempt fails, since a bracket
      never opens both.

    The bounds on depth and on the number of members are numbers of tokens, and
    every level and every member uses one up. A grammar that a function reads is
    unambiguous.
-/

namespace NaturalDeduction

namespace Reader

open Grammar

variable {α : Type} {kind : SymbolKind} {part : Part} {f g : Formula} {ts us rest : List Token}

/-! ### Only the grammar -/

/-- The tokens that the reader uses up are what `derives` asks for. -/
def Sound (reader : Reader α) (derives : List Token → α → Prop) : Prop :=
  ∀ ts x rest, reader ts = .ok (x, rest) → ∃ us, ts = us ++ rest ∧ derives us x

theorem close_eq_ok {shape : Bracket} {u : Unit} :
    close shape ts = .ok (u, rest) ↔ ∃ t, ts = t :: rest ∧ t.kind = .closing shape := by
  constructor
  · intro h
    unfold close at h
    split at h
    · next shape' lexeme p _ =>
      split at h
      · next hshape =>
        cases h
        exact ⟨_, rfl, congrArg TokenKind.closing hshape⟩
      · cases h
    · cases h
  · rintro ⟨⟨_, lexeme, p⟩, rfl, rfl⟩
    simp [close]

theorem turnstile_eq_ok {u : Unit} :
    turnstile ts = .ok (u, rest) ↔ ∃ t, ts = t :: rest ∧ t.kind = .entails := by
  constructor
  · intro h
    unfold turnstile at h
    split at h
    · cases h
      exact ⟨_, rfl, rfl⟩
    · cases h
  · rintro ⟨⟨_, lexeme, p⟩, rfl, rfl⟩
    rfl

/-- Postfix operators that are taken up make a longer chain. -/
theorem postfixes_sound (hf : Derives kind .chain us f) (ts : List Token) :
    ∃ vs, ts = vs ++ (postfixes f ts).2 ∧ Derives kind .chain (us ++ vs) (postfixes f ts).1 := by
  fun_induction postfixes f ts generalizing us with
  | case1 f name lexeme p ts ih =>
    obtain ⟨vs, hts, hchain⟩ := ih (.postfixed (t := ⟨.operator ⟨name, .postfixed⟩, lexeme, p⟩) hf rfl)
    exact ⟨⟨.operator ⟨name, .postfixed⟩, lexeme, p⟩ :: vs, by simpa using hts, by simpa using hchain⟩
  | case2 f ts => exact ⟨[], rfl, by simpa using hf⟩

theorem expressionOf_sound {term : Reader Formula} (hterm : Sound term (Derives kind .term)) :
    Sound (expressionOf term) (Derives kind .expression) := by
  intro ts f rest h
  obtain ⟨⟨left, rest₁⟩, hleft, hnext⟩ := Except.bind_eq_ok.mp h
  obtain ⟨us, rfl, hl⟩ := hterm _ _ _ hleft
  dsimp only at hnext
  split at hnext
  · next name lexeme p rest₂ =>
    obtain ⟨⟨right, rest₃⟩, hright, hresult⟩ := Except.bind_eq_ok.mp hnext
    obtain ⟨vs, rfl, hr⟩ := hterm _ _ _ hright
    cases hresult
    exact ⟨us ++ ⟨.operator ⟨name, .infixed⟩, lexeme, p⟩ :: vs, by simp, .infixed hl rfl hr⟩
  · cases hnext
    exact ⟨us, rfl, .term hl⟩

theorem term_sound (depth : Nat) : Sound (term kind depth) (Derives kind .term) := by
  induction depth with
  | zero =>
    intro ts f rest h
    cases h
  | succ depth ih =>
    intro ts f rest h
    unfold term at h
    -- a prefix operator, a bracket or a symbol comes first
    split at h
    · next name lexeme p ts =>
      obtain ⟨⟨operand, rest₁⟩, hoperand, hresult⟩ := Except.bind_eq_ok.mp h
      obtain ⟨us, rfl, hus⟩ := ih _ _ _ hoperand
      cases hresult
      exact ⟨⟨.operator ⟨name, .prefixed⟩, lexeme, p⟩ :: us, rfl, .prefixed rfl hus⟩
    · next shape lexeme p ts =>
      obtain ⟨⟨inner, rest₁⟩, hinner, hnext⟩ := Except.bind_eq_ok.mp h
      obtain ⟨⟨_, rest₂⟩, hclose, hresult⟩ := Except.bind_eq_ok.mp hnext
      obtain ⟨us, rfl, hus⟩ := expressionOf_sound ih _ _ _ hinner
      obtain ⟨t', rfl, ht'⟩ := close_eq_ok.mp hclose
      have hgroup : Derives kind .primary (⟨.opening shape, lexeme, p⟩ :: (us ++ [t'])) inner :=
        .group rfl hus ht'
      obtain ⟨vs, hvs, hchain⟩ := postfixes_sound (.bare hgroup) rest₂
      rw [Except.ok.inj hresult] at hvs hchain
      refine ⟨_, ?_, .chain hchain⟩
      rw [hvs]
      simp
    · next name p ts =>
      have hsymbol : Derives kind .primary [⟨.symbol, name, p⟩] (.atom ⟨name, kind⟩) := .symbol rfl
      obtain ⟨vs, hvs, hchain⟩ := postfixes_sound (.bare hsymbol) ts
      rw [Except.ok.inj h] at hvs hchain
      refine ⟨_, ?_, .chain hchain⟩
      rw [hvs]
      rfl
    · cases h

theorem expression_sound : Sound (expression kind) (Derives kind .expression) :=
  fun ts => expressionOf_sound (term_sound ts.length) ts

theorem separated_sound {member : Reader α} {derives : List Token → α → Prop}
    (hmember : Sound member derives) (bound : Nat) :
    Sound (separated member bound) (Listed derives) := by
  induction bound with
  | zero =>
    intro ts xs rest h
    obtain ⟨⟨x, rest₁⟩, hx, hresult⟩ := Except.bind_eq_ok.mp h
    obtain ⟨us, rfl, hus⟩ := hmember _ _ _ hx
    cases hresult
    exact ⟨us, rfl, .last hus⟩
  | succ bound ih =>
    intro ts xs rest h
    obtain ⟨⟨x, rest₁⟩, hx, hnext⟩ := Except.bind_eq_ok.mp h
    obtain ⟨us, rfl, hus⟩ := hmember _ _ _ hx
    dsimp only at hnext
    split at hnext
    · next lexeme p rest₂ =>
      obtain ⟨⟨ys, rest₃⟩, hys, hresult⟩ := Except.bind_eq_ok.mp hnext
      obtain ⟨vs, rfl, hvs⟩ := ih _ _ _ hys
      cases hresult
      exact ⟨us ++ ⟨.comma, lexeme, p⟩ :: vs, by simp, .more hus rfl hvs⟩
    · cases hnext
      exact ⟨us, rfl, .last hus⟩

theorem sequentOf_sound {premise : Reader Form} {derives : List Token → Form → Prop}
    (hpremise : Sound premise derives) :
    Sound (sequentOf kind premise) (SequentOf kind derives) := by
  intro ts s rest h
  obtain ⟨⟨premises, rest₁⟩, hreadps, hnext⟩ := Except.bind_eq_ok.mp h
  obtain ⟨⟨_, rest₂⟩, hturnstile, hnext'⟩ := Except.bind_eq_ok.mp hnext
  obtain ⟨⟨conclusions, rest₃⟩, hreadcs, hresult⟩ := Except.bind_eq_ok.mp hnext'
  cases hresult
  obtain ⟨t, rfl, ht⟩ := turnstile_eq_ok.mp hturnstile
  obtain ⟨cs, rfl, hcs⟩ := separated_sound expression_sound _ _ _ _ hreadcs
  unfold premisesOf at hreadps
  split at hreadps
  · next lexeme p ts =>
    obtain ⟨rfl, hrest⟩ := Prod.mk.inj (Except.ok.inj hreadps)
    exact ⟨t :: cs, hrest, .unconditional ht hcs⟩
  · obtain ⟨ps, rfl, hps⟩ := separated_sound hpremise _ _ _ _ hreadps
    exact ⟨ps ++ t :: cs, by simp, .conditional hps ht hcs⟩

/-- A premise is an expression, or a sequent in brackets one level deeper. -/
theorem premise_eq_ok {depth : Nat} {p : Form} (h : premise kind depth ts = .ok (p, rest)) :
    (∃ f, expression kind ts = .ok (f, rest) ∧ p = .formula f) ∨
      ∃ depth' shape t us t' s, depth = depth' + 1 ∧ ts = t :: us ∧ t.kind = .opening shape ∧
        sequentOf kind (premise kind depth') us = .ok (s, t' :: rest) ∧
          t'.kind = .closing shape ∧ p = s.toForm := by
  unfold premise at h
  split at h
  · next f rest₁ hf =>
    cases h
    exact .inl ⟨f, hf, rfl⟩
  · split at h
    · next depth' shape lexeme q us _ =>
      obtain ⟨⟨s, rest₁⟩, hs, hnext⟩ := Except.bind_eq_ok.mp h
      obtain ⟨⟨_, rest₂⟩, hclose, hresult⟩ := Except.bind_eq_ok.mp hnext
      obtain ⟨t', rfl, ht'⟩ := close_eq_ok.mp hclose
      cases hresult
      exact .inr ⟨depth', shape, _, us, t', s, rfl, rfl, rfl, hs, ht', rfl⟩
    · cases h

theorem premise_sound (depth : Nat) : Sound (premise kind depth) (DerivesPremise kind) := by
  induction depth using Nat.strongRecOn with
  | ind depth ih =>
    intro ts p rest h
    rcases premise_eq_ok h with
      ⟨f, hf, rfl⟩ | ⟨depth', shape, t, us, t', s, hdepth, rfl, ht, hs, ht', rfl⟩
    · obtain ⟨us, rfl, hus⟩ := expression_sound _ _ _ hf
      exact ⟨us, rfl, .formula hus⟩
    · obtain ⟨vs, rfl, hvs⟩ := sequentOf_sound (ih depth' (by omega)) _ _ _ hs
      exact ⟨t :: (vs ++ [t']), by simp, .nested ht hvs ht'⟩

theorem sequent_sound : Sound (sequent kind) (DerivesSequent kind) :=
  fun ts => sequentOf_sound (premise_sound ts.length) ts

/-! ### All formulas of the grammar -/

/-- No operator of a fixity comes next. -/
def NotNext (fixity : Fixity) (rest : List Token) : Prop :=
  ∀ t ∈ rest.head?, ∀ name, t.kind ≠ .operator ⟨name, fixity⟩

@[simp] theorem notNext_nil (fixity : Fixity) : NotNext fixity [] := by
  simp [NotNext]

@[simp] theorem notNext_cons {fixity : Fixity} {t : Token} :
    NotNext fixity (t :: rest) ↔ ∀ name, t.kind ≠ .operator ⟨name, fixity⟩ := by
  simp [NotNext]

/-- What comes next does not go on with an expression. -/
def Ends (rest : List Token) : Prop := NotNext .postfixed rest ∧ NotNext .infixed rest

theorem postfixes_of_notNext (h : NotNext .postfixed rest) : postfixes f rest = (f, rest) := by
  unfold postfixes
  split
  · next name lexeme p rest => exact absurd rfl (notNext_cons.mp h name)
  · rfl

/-- The tokens are read as a formula by the reader for a part. After a primary or a chain, postfix
    operators that come next are taken up as well. -/
def ReadAs (kind : SymbolKind) : Part → List Token → Formula → Prop
  | .primary, us, f | .chain, us, f =>
    ∀ depth rest, us.length ≤ depth → term kind depth (us ++ rest) = .ok (postfixes f rest)
  | .term, us, f =>
    ∀ depth rest, us.length ≤ depth → NotNext .postfixed rest →
      term kind depth (us ++ rest) = .ok (f, rest)
  | .expression, us, f =>
    ∀ depth rest, us.length ≤ depth → Ends rest →
      expressionOf (term kind depth) (us ++ rest) = .ok (f, rest)

theorem readAs_symbol {t : Token} (ht : t.kind = .symbol) :
    ReadAs kind .primary [t] (.atom ⟨t.lexeme, kind⟩) := by
  intro depth rest hle
  obtain ⟨_, lexeme, p⟩ := t
  cases ht
  match depth, hle with
  | depth + 1, _ => rfl

theorem readAs_group {shape : Bracket} {t t' : Token} (ht : t.kind = .opening shape)
    (h : ReadAs kind .expression us f) (ht' : t'.kind = .closing shape) :
    ReadAs kind .primary (t :: (us ++ [t'])) f := by
  intro depth rest hle
  obtain ⟨_, lexeme, p⟩ := t
  cases ht
  match depth, hle with
  | depth + 1, hle =>
    have hdepth : us.length ≤ depth := by
      simp only [List.length_cons, List.length_append] at hle
      omega
    -- a closing bracket goes on with nothing
    have hinner := h depth (t' :: rest) hdepth ⟨by simp [ht'], by simp [ht']⟩
    have hclose : close shape (t' :: rest) = .ok ((), rest) := close_eq_ok.mpr ⟨t', rfl, ht'⟩
    show term kind (depth + 1) (⟨.opening shape, lexeme, p⟩ :: ((us ++ [t']) ++ rest)) = _
    rw [List.append_assoc]
    exact Except.bind_eq_ok.mpr ⟨_, hinner, Except.bind_eq_ok.mpr ⟨_, hclose, rfl⟩⟩

theorem readAs_postfixed {name : String} {t : Token} (h : ReadAs kind .chain us f)
    (ht : t.kind = .operator ⟨name, .postfixed⟩) :
    ReadAs kind .chain (us ++ [t]) (.app ⟨name, .postfixed⟩ [f]) := by
  intro depth rest hle
  obtain ⟨_, lexeme, p⟩ := t
  cases ht
  have hchain := h depth (⟨.operator ⟨name, .postfixed⟩, lexeme, p⟩ :: rest) (by simp at hle; omega)
  rw [List.append_assoc]
  exact hchain

theorem readAs_prefixed {name : String} {t : Token} (ht : t.kind = .operator ⟨name, .prefixed⟩)
    (h : ReadAs kind .term us f) :
    ReadAs kind .term (t :: us) (.app ⟨name, .prefixed⟩ [f]) := by
  intro depth rest hle hrest
  obtain ⟨_, lexeme, p⟩ := t
  cases ht
  match depth, hle with
  | depth + 1, hle =>
    exact Except.bind_eq_ok.mpr ⟨_, h depth rest (Nat.le_of_succ_le_succ hle) hrest, rfl⟩

theorem readAs_term (h : ReadAs kind .term us f) : ReadAs kind .expression us f := by
  intro depth rest hle hrest
  refine Except.bind_eq_ok.mpr ⟨_, h depth rest hle hrest.1, ?_⟩
  dsimp only
  split
  · next name lexeme p rest => exact absurd rfl (notNext_cons.mp hrest.2 name)
  · rfl

theorem readAs_infixed {name : String} {t : Token} (hleft : ReadAs kind .term us f)
    (ht : t.kind = .operator ⟨name, .infixed⟩) (hright : ReadAs kind .term ts g) :
    ReadAs kind .expression (us ++ t :: ts) (.app ⟨name, .infixed⟩ [f, g]) := by
  intro depth rest hle hrest
  obtain ⟨_, lexeme, p⟩ := t
  cases ht
  simp only [List.length_append, List.length_cons] at hle
  have hl := hleft depth (⟨.operator ⟨name, .infixed⟩, lexeme, p⟩ :: (ts ++ rest)) (by omega)
    (by simp)
  have hr := hright depth rest (by omega) hrest.1
  rw [List.append_assoc]
  exact Except.bind_eq_ok.mpr ⟨_, hl, Except.bind_eq_ok.mpr ⟨_, hr, rfl⟩⟩

theorem readAs_of_derives (h : Derives kind part us f) :
    ReadAs kind part us f := by
  induction h with
  | symbol ht => exact readAs_symbol ht
  | group ht _ ht' ih => exact readAs_group ht ih ht'
  | bare _ ih => exact ih
  | postfixed _ ht ih => exact readAs_postfixed ih ht
  | chain _ ih =>
    -- no postfix operator comes next that would be taken up
    intro depth rest hle hrest
    rw [ih depth rest hle, postfixes_of_notNext hrest]
  | prefixed ht _ ih => exact readAs_prefixed ht ih
  | term _ ih => exact readAs_term ih
  | infixed _ ht _ ih ih' => exact readAs_infixed ih ht ih'

/-- The tokens are read as `x`, and the reader stops right after them, if what comes next does not
    go on with an expression. -/
def Reads (reader : Reader α) (us : List Token) (x : α) : Prop :=
  ∀ rest, Ends rest → reader (us ++ rest) = .ok (x, rest)

theorem expression_reads (h : Derives kind .expression us f) : Reads (expression kind) us f := by
  intro rest hrest
  exact readAs_of_derives h _ rest (by simp) hrest

/-! ### All sequents of the grammar -/

/-- No comma comes next. -/
def NoComma (rest : List Token) : Prop := ∀ t ∈ rest.head?, t.kind ≠ .comma

theorem separated_reads {member : Reader α} {xs : List α} (h : Listed (Reads member) us xs)
    {bound : Nat} (hbound : xs.length ≤ bound + 1) (hrest : Ends rest) (hcomma : NoComma rest) :
    separated member bound (us ++ rest) = .ok (xs, rest) := by
  induction h generalizing bound with
  | last hx =>
    have hread := hx rest hrest
    match bound with
    | 0 => exact Except.bind_eq_ok.mpr ⟨_, hread, rfl⟩
    | bound + 1 =>
      refine Except.bind_eq_ok.mpr ⟨_, hread, ?_⟩
      dsimp only
      split
      · next lexeme p rest => exact absurd rfl (hcomma ⟨.comma, lexeme, p⟩ rfl)
      · rfl
  | @more t us' vs x xs hx ht hxs ih =>
    obtain ⟨_, lexeme, p⟩ := t
    cases ht
    match bound, hbound with
    | 0, hbound =>
      -- the list has a second member
      cases hxs <;> simp at hbound
    | bound + 1, hbound =>
      have hread := hx (⟨.comma, lexeme, p⟩ :: (vs ++ rest)) ⟨by simp, by simp⟩
      have hreads : separated member bound (vs ++ rest) = .ok (xs, rest) :=
        ih (by simpa using hbound)
      rw [List.append_assoc]
      exact Except.bind_eq_ok.mpr ⟨_, hread, Except.bind_eq_ok.mpr ⟨_, hreads, rfl⟩⟩

/-- The number of tokens is bound enough. -/
theorem separated_reads_length {member : Reader α} {xs : List α} (h : Listed (Reads member) us xs)
    (hrest : Ends rest) (hcomma : NoComma rest) :
    separated member (us ++ rest).length (us ++ rest) = .ok (xs, rest) := by
  refine separated_reads h ?_ hrest hcomma
  have hle := h.length_le
  simp only [List.length_append]
  omega

/-- The tokens start with something else than the sign for entailment. -/
def StartsPremise (us : List Token) : Prop := ∃ t vs, us = t :: vs ∧ t.kind ≠ .entails

theorem startsPremise_of_derives (h : Derives kind part us f) : StartsPremise us := by
  obtain ⟨t, vs, rfl⟩ := List.exists_cons_of_ne_nil h.ne_nil
  exact ⟨t, vs, rfl, h.kind_ne_entails t List.mem_cons_self⟩

theorem startsPremise_of_derivesPremise {p : Form} (h : DerivesPremise kind us p) :
    StartsPremise us := by
  cases h with
  | formula hf => exact startsPremise_of_derives hf
  | nested ht _ _ => exact ⟨_, _, rfl, by simp [ht]⟩

theorem startsPremise_of_listed {derives : List Token → α → Prop} {xs : List α}
    (h : Listed derives us xs) (hstarts : ∀ vs x, derives vs x → StartsPremise vs) :
    StartsPremise us := by
  cases h with
  | last hx => exact hstarts _ _ hx
  | more hx _ _ =>
    obtain ⟨t, vs, rfl, ht⟩ := hstarts _ _ hx
    exact ⟨t, _, rfl, ht⟩

theorem premisesOf_of_startsPremise {premise : Reader Form} (h : StartsPremise us)
    (rest : List Token) :
    premisesOf premise (us ++ rest) = separated premise (us ++ rest).length (us ++ rest) := by
  obtain ⟨t, vs, rfl, ht⟩ := h
  unfold premisesOf
  split
  · next hcons =>
    cases hcons
    exact absurd rfl ht
  · rfl

theorem sequentOf_reads {premise : Reader Form} {s : Sequent}
    (h : SequentOf kind (fun vs p => Reads premise vs p ∧ StartsPremise vs) us s)
    (hrest : Ends rest) (hcomma : NoComma rest) :
    sequentOf kind premise (us ++ rest) = .ok (s, rest) := by
  cases h with
  | @unconditional t cs conclusions ht hcs =>
    obtain ⟨_, lexeme, p⟩ := t
    cases ht
    have hreads := separated_reads_length (hcs.imp fun _ _ _ hc => expression_reads hc) hrest hcomma
    -- the sign for entailment comes first, so that no premises are looked for
    exact Except.bind_eq_ok.mpr ⟨_, rfl, Except.bind_eq_ok.mpr ⟨_, rfl,
      Except.bind_eq_ok.mpr ⟨_, hreads, rfl⟩⟩⟩
  | @conditional t ps cs premises conclusions hps ht hcs =>
    have hstarts := startsPremise_of_listed hps fun _ _ hp => hp.2
    have hpremises : premisesOf premise (ps ++ t :: (cs ++ rest)) =
        .ok (premises, t :: (cs ++ rest)) := by
      rw [premisesOf_of_startsPremise hstarts]
      -- the sign for entailment goes on with nothing
      exact separated_reads_length (hps.imp fun _ _ _ hp => hp.1) ⟨by simp [ht], by simp [ht]⟩
        (by simp [NoComma, ht])
    have hreads := separated_reads_length (hcs.imp fun _ _ _ hc => expression_reads hc) hrest hcomma
    have hturnstile : turnstile (t :: (cs ++ rest)) = .ok ((), cs ++ rest) :=
      turnstile_eq_ok.mpr ⟨t, rfl, ht⟩
    rw [List.append_assoc]
    exact Except.bind_eq_ok.mpr ⟨_, hpremises, Except.bind_eq_ok.mpr ⟨_, hturnstile,
      Except.bind_eq_ok.mpr ⟨_, hreads, rfl⟩⟩⟩

/-- A sequent in brackets is not read as an expression. -/
theorem expression_of_nested {shape : Bracket} {t t' : Token} {s : Sequent}
    (ht : t.kind = .opening shape) (hs : SequentOf kind (DerivesPremise kind) us s)
    (ht' : t'.kind = .closing shape) (rest : List Token) :
    ∃ e, expression kind (t :: (us ++ t' :: rest)) = .error e := by
  cases h : expression kind (t :: (us ++ t' :: rest)) with
  | error e => exact ⟨e, rfl⟩
  | ok result =>
    -- what was read would start in the same bracket as the sequent
    obtain ⟨vs, hvs, hf⟩ := expression_sound _ _ _ h
    exact absurd hvs.symm (hf.not_of_sequentOf ht hs ht')

theorem premise_reads {p : Form} (h : DerivesPremise kind us p) {depth : Nat}
    (hdepth : us.length ≤ depth) : Reads (premise kind depth) us p := by
  induction h using DerivesPremise.induction generalizing depth with
  | formula hf =>
    intro rest hrest
    unfold premise
    rw [expression_reads hf rest hrest]
  | @nested shape t t' us s ht hs ht' ih =>
    intro rest hrest
    match depth, hdepth with
    | depth + 1, hdepth =>
      simp only [List.length_cons, List.length_append] at hdepth
      have hsequent : sequentOf kind (premise kind depth) (us ++ t' :: rest) =
          .ok (s, t' :: rest) := by
        refine sequentOf_reads (ih.imp ?_) ⟨by simp [ht'], by simp [ht']⟩ (by simp [NoComma, ht'])
        intro vs p hle hp
        obtain ⟨hderives, hreads⟩ := hp
        exact ⟨hreads (by omega), startsPremise_of_derivesPremise hderives⟩
      have hclose : close shape (t' :: rest) = .ok ((), rest) := close_eq_ok.mpr ⟨t', rfl, ht'⟩
      -- the attempt to read an expression fails, and the sequent is read from the same bracket on
      obtain ⟨e, he⟩ := expression_of_nested ht hs ht' rest
      have hall : t :: (us ++ [t']) ++ rest = t :: (us ++ t' :: rest) := by simp
      obtain ⟨_, lexeme, q⟩ := t
      cases ht
      rw [hall]
      unfold premise
      rw [he]
      exact Except.bind_eq_ok.mpr ⟨_, hsequent, Except.bind_eq_ok.mpr ⟨_, hclose, rfl⟩⟩

theorem sequent_reads {s : Sequent} (h : DerivesSequent kind us s) (hrest : Ends rest)
    (hcomma : NoComma rest) : sequent kind (us ++ rest) = .ok (s, rest) := by
  refine sequentOf_reads (SequentOf.imp h ?_) hrest hcomma
  intro vs p hle hp
  refine ⟨premise_reads hp ?_, startsPremise_of_derivesPremise hp⟩
  rw [List.length_append]
  omega

/-! ### Whole token lists -/

theorem expression_eq_ok_iff :
    expression kind ts = .ok (f, []) ↔ Derives kind .expression ts f := by
  constructor
  · intro h
    obtain ⟨us, rfl, hus⟩ := expression_sound _ _ _ h
    rwa [List.append_nil]
  · intro h
    have hread := expression_reads h [] ⟨by simp, by simp⟩
    rwa [List.append_nil] at hread

theorem sequent_eq_ok_iff {s : Sequent} :
    sequent kind ts = .ok (s, []) ↔ DerivesSequent kind ts s := by
  constructor
  · intro h
    obtain ⟨us, rfl, hus⟩ := sequent_sound _ _ _ h
    rwa [List.append_nil]
  · intro h
    have hread := sequent_reads h (⟨by simp, by simp⟩ : Ends []) (by simp [NoComma])
    rwa [List.append_nil] at hread

end Reader

namespace Grammar

variable {kind : SymbolKind} {ts : List Token}

theorem Derives.unique {f g : Formula} (hf : Derives kind .expression ts f)
    (hg : Derives kind .expression ts g) : f = g := by
  have hread := Reader.expression_eq_ok_iff.mpr hf
  rw [Reader.expression_eq_ok_iff.mpr hg] at hread
  cases hread
  rfl

theorem DerivesSequent.unique {s s' : Sequent} (hs : DerivesSequent kind ts s)
    (hs' : DerivesSequent kind ts s') : s = s' := by
  have hread := Reader.sequent_eq_ok_iff.mpr hs
  rw [Reader.sequent_eq_ok_iff.mpr hs'] at hread
  cases hread
  rfl

end Grammar

namespace Language

open Grammar

variable {lang : Language} {kind : SymbolKind} {source : String}

theorem read_eq_ok_iff {α : Type} {reader : Reader α} {x : α} :
    lang.read reader source = .ok x ↔ reader (lang.scan source) = .ok (x, []) := by
  simp only [read, Reader.toEnd, TokenStream.ofText]
  cases h : reader (lang.scan source) with
  | error e => simp [bind, Except.bind]
  | ok result =>
    obtain ⟨y, rest⟩ := result
    cases rest <;> simp [bind, Except.bind, pure, Except.pure, throw, throwThe, MonadExceptOf.throw]

theorem parseFormula_eq_ok_iff {f : Formula} :
    lang.parseFormula kind source = .ok f ↔ Derives kind .expression (lang.scan source) f :=
  read_eq_ok_iff.trans Reader.expression_eq_ok_iff

theorem parseSequent_eq_ok_iff {s : Sequent} :
    lang.parseSequent kind source = .ok s ↔ DerivesSequent kind (lang.scan source) s :=
  read_eq_ok_iff.trans Reader.sequent_eq_ok_iff

/-- **Exact grammar.** A text is read as a formula or as a sequent exactly if its tokens derive
    that, and no tokens derive two formulas or two sequents. The kind of the atoms does not matter to
    what is read: with another kind, the same texts are read, as the same with atoms of that kind. -/
theorem parse_exact (lang : Language) (source : String) :
    (∀ kind f,
      lang.parseFormula kind source = .ok f ↔ Derives kind .expression (lang.scan source) f) ∧
    (∀ kind s,
      lang.parseSequent kind source = .ok s ↔ DerivesSequent kind (lang.scan source) s) ∧
    (∀ kind ts f g,
      Derives kind .expression ts f → Derives kind .expression ts g → f = g) ∧
    (∀ kind ts s s', DerivesSequent kind ts s → DerivesSequent kind ts s' → s = s') ∧
    (∀ kind kind' f, lang.parseFormula kind source = .ok f →
      lang.parseFormula kind' source = .ok (f.retag kind')) ∧
    ∀ kind kind' s, lang.parseSequent kind source = .ok s →
      lang.parseSequent kind' source = .ok (s.retag kind') := by
  refine ⟨fun _ _ => parseFormula_eq_ok_iff, fun _ _ => parseSequent_eq_ok_iff,
    fun _ _ _ _ => Derives.unique, fun _ _ _ _ => DerivesSequent.unique, ?_, ?_⟩
  · intro kind kind' f h
    rw [parseFormula_eq_ok_iff] at h ⊢
    exact h.retag kind'
  · intro kind kind' s h
    rw [parseSequent_eq_ok_iff] at h ⊢
    exact h.retag kind'

/-- A text with a sequent in brackets beside an expression in brackets. -/
def sampleText : String := "[~A |- B & C], (A) |- ~N:A, B"

/-- What the text stands for, with atoms of a kind. -/
def sampleSequent (kind : SymbolKind) : Sequent :=
  let atom (name : String) : Formula := .atom ⟨name, kind⟩
  let negation (f : Formula) : Formula := .app ⟨"Negation", .prefixed⟩ [f]
  ⟨[.sequent [.formula (negation (atom "A"))]
      [.app ⟨"Conjunction", .infixed⟩ [atom "B", atom "C"]],
    .formula (atom "A")],
    [negation (.app ⟨"Necessitation", .prefixed⟩ [atom "A"]), atom "B"]⟩

/-- The sequent in brackets is derived as one, and read with schema variables as well. -/
theorem parse_exact_sampleText :
    horseshoe.parseSequent .proposition sampleText = .ok (sampleSequent .proposition) ∧
      DerivesSequent .proposition (horseshoe.scan sampleText) (sampleSequent .proposition) ∧
        horseshoe.parseSequent .schema sampleText = .ok (sampleSequent .schema) := by
  have hparse : horseshoe.parseSequent .proposition sampleText =
      .ok (sampleSequent .proposition) := by rfl
  obtain ⟨_, hderives, _, _, _, hkind⟩ := parse_exact horseshoe sampleText
  exact ⟨hparse, (hderives _ _).mp hparse, hkind _ .schema _ hparse⟩

end Language

end NaturalDeduction
