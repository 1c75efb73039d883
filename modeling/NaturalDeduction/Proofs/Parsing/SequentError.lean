import NaturalDeduction.Proofs.Parsing.FirstError

/-! # Where errors in sequents stand

    A premise is read twice: as an expression, and if that fails, as a sequent
    in brackets. The error of the second attempt is kept, which may stand at an
    earlier token than that of the first.

    * **Where a premise begins** (`PremiseBegins`): at the start, after a premise
      and a comma, and after an opening bracket.
    * **What is reported** (`Reported`): the first token that cannot continue
      the sequent, with two exceptions. If the expression of a premise fails, and
      it does not start with a bracket, the error stands where the premise
      begins. If it starts with an expression in brackets, the error stands at
      the closing bracket.
    * In any case, the tokens before the error are the start of a sequent.
-/

namespace NaturalDeduction

namespace Grammar

variable {α : Type} {kind : SymbolKind} {allowed : Token → Prop} {derives : List Token → α → Prop}
  {t : Token} {ts us before skipped : List Token} {shape : Bracket} {message : String}

/-! ### Starts of sequents -/

/-- The tokens allowed are enough to complete a sequent. -/
structure CompletingSequents (allowed : Token → Prop) : Prop extends Completing allowed where
  entails : ∃ t, allowed t ∧ t.kind = .entails

/-- The tokens are all premises of a sequent, possibly none. -/
def Antecedent (kind : SymbolKind) (ts : List Token) (ps : List Form) : Prop :=
  (ts = [] ∧ ps = []) ∨ Listed (DerivesPremise kind) ts ps

theorem Antecedent.sequent {ps : List Form} {cs : List Formula} (h : Antecedent kind ts ps)
    (ht : t.kind = .entails) (hcs : Listed (Derives kind .expression) us cs) :
    DerivesSequent kind (ts ++ t :: us) ⟨ps, cs⟩ := by
  rcases h with ⟨rfl, rfl⟩ | hps
  · exact .unconditional ht hcs
  · exact .conditional hps ht hcs

theorem Viable.of_append (h : Viable allowed derives (ts ++ us)) (hus : ∀ u ∈ us, allowed u) :
    Viable allowed derives ts := by
  obtain ⟨vs, x, hvs, hx⟩ := h
  refine ⟨us ++ vs, x, ?_, ?_⟩
  · simpa [or_imp, forall_and] using ⟨hus, hvs⟩
  · rwa [← List.append_assoc]

theorem Viable.premise (h : Viable allowed (Derives kind .expression) ts) :
    Viable allowed (DerivesPremise kind) ts := by
  obtain ⟨us, f, hus, hf⟩ := h
  exact ⟨us, _, hus, .formula hf⟩

theorem Viable.listed (h : Viable allowed derives ts) : Viable allowed (Listed derives) ts := by
  obtain ⟨us, x, hus, hx⟩ := h
  exact ⟨us, _, hus, .last hx⟩

theorem Viable.more {x : α} (hx : derives us x) (ht : t.kind = .comma)
    (h : Viable allowed (Listed derives) ts) :
    Viable allowed (Listed derives) (us ++ [t] ++ ts) := by
  obtain ⟨vs, xs, hvs, hxs⟩ := h
  refine ⟨vs, x :: xs, hvs, ?_⟩
  rw [List.append_assoc, List.append_assoc]
  exact .more hx ht hxs

theorem Viable.concluded {ps : List Form} (hps : Antecedent kind us ps) (ht : t.kind = .entails)
    (h : Viable allowed (Listed (Derives kind .expression)) ts) :
    Viable allowed (DerivesSequent kind) (us ++ [t] ++ ts) := by
  obtain ⟨vs, cs, hvs, hcs⟩ := h
  refine ⟨vs, ⟨ps, cs⟩, hvs, ?_⟩
  rw [List.append_assoc, List.append_assoc]
  exact hps.sequent ht hcs

/-- A list of premises can be completed by a turnstile and an atom. -/
theorem Viable.conditional (hallowed : CompletingSequents allowed)
    (h : Viable allowed (Listed (DerivesPremise kind)) ts) :
    Viable allowed (DerivesSequent kind) ts := by
  obtain ⟨us, ps, hus, hps⟩ := h
  obtain ⟨t, ht, hentails⟩ := hallowed.entails
  have hatom : Viable allowed (Derives kind .expression) [] :=
    (viable_nil hallowed.toCompleting).expression
  obtain ⟨vs, f, hvs, hf⟩ := hatom
  refine ⟨us ++ t :: vs, ⟨ps, [f]⟩, ?_, ?_⟩
  · simpa [or_imp, forall_and] using ⟨hus, ht, hvs⟩
  · rw [← List.append_assoc]
    exact .conditional hps hentails (.last hf)

theorem Viable.nested (hallowed : CompletingSequents allowed) (ht : t.kind = .opening shape)
    (h : Viable allowed (DerivesSequent kind) ts) :
    Viable allowed (DerivesPremise kind) (t :: ts) := by
  obtain ⟨us, s, hus, hs⟩ := h
  obtain ⟨t', ht', hclosing⟩ := hallowed.closing shape
  refine ⟨us ++ [t'], s.toForm, ?_, ?_⟩
  · simpa [or_imp, forall_and] using ⟨hus, ht'⟩
  · rw [List.cons_append, ← List.append_assoc]
    exact .nested ht hs hclosing

/-! ### Tokens of sequents -/

theorem Listed.kind_ne_eof {xs : List α} (h : Listed derives ts xs)
    (hmember : ∀ us x, derives us x → ∀ t ∈ us, t.kind ≠ .eof) : ∀ t ∈ ts, t.kind ≠ .eof := by
  induction h with
  | last hx => exact hmember _ _ hx
  | more hx ht _ ih =>
    simpa [ht, or_imp, forall_and] using ⟨hmember _ _ hx, ih⟩

theorem SequentOf.kind_ne_eof {premise : List Token → Form → Prop} {s : Sequent}
    (h : SequentOf kind premise ts s)
    (hpremise : ∀ us p, premise us p → ∀ t ∈ us, t.kind ≠ .eof) : ∀ t ∈ ts, t.kind ≠ .eof := by
  cases h with
  | unconditional ht hcs =>
    have hconclusions := hcs.kind_ne_eof fun _ _ hc => hc.kind_ne_eof
    simpa [ht] using hconclusions
  | conditional hps ht hcs =>
    have hconclusions := hcs.kind_ne_eof fun _ _ hc => hc.kind_ne_eof
    simpa [ht, or_imp, forall_and] using ⟨hps.kind_ne_eof hpremise, hconclusions⟩

theorem DerivesPremise.kind_ne_eof {p : Form} (h : DerivesPremise kind ts p) :
    ∀ t ∈ ts, t.kind ≠ .eof := by
  induction h using DerivesPremise.induction with
  | formula hf => exact hf.kind_ne_eof
  | nested ht _ ht' ih =>
    have hinner := ih.kind_ne_eof fun us p hp => hp.2
    simpa [ht, ht', or_imp, forall_and] using hinner

/-! ### What is reported -/

/-- A premise begins after the tokens. -/
inductive PremiseBegins (kind : SymbolKind) : List Token → Prop where
  | start : PremiseBegins kind []
  | next {t : Token} {ts us : List Token} {p : Form} :
      DerivesPremise kind ts p → t.kind = .comma → PremiseBegins kind us →
        PremiseBegins kind (ts ++ [t] ++ us)
  | inner {shape : Bracket} {t : Token} {us : List Token} :
      t.kind = .opening shape → PremiseBegins kind us → PremiseBegins kind (t :: us)

/-- An error is reported after the tokens `before`, although the tokens `skipped` can come next. -/
inductive Reported (allowed : Token → Prop) (kind : SymbolKind) :
    (before skipped : List Token) → (message : String) → Prop where
  /-- The next token cannot come next. -/
  | offending {before : List Token} {message : String} : Reported allowed kind before [] message
  /-- A premise that is no expression begins here, and not with a bracket. -/
  | premise {before : List Token} {t : Token} {more : List Token} :
      PremiseBegins kind before →
        t.kind = .symbol ∨ (∃ name, t.kind = .operator ⟨name, .prefixed⟩) →
          Viable allowed (Derives kind .expression) (t :: more) →
            Reported allowed kind before (t :: more) "'(' expected."
  /-- A premise that is no expression begins with an expression in brackets, which end here. -/
  | closing {shape : Bracket} {before : List Token} {t t' : Token} {us more : List Token}
      {f : Formula} :
      PremiseBegins kind before → t.kind = .opening shape → Derives kind .expression us f →
        t'.kind = .closing shape →
          Viable allowed (Derives kind .expression) (t :: (us ++ t' :: more)) →
            Reported allowed kind (before ++ t :: us) (t' :: more) "'|-' expected."

theorem Reported.append (hus : ∀ b, PremiseBegins kind b → PremiseBegins kind (us ++ b))
    (h : Reported allowed kind before skipped message) :
    Reported allowed kind (us ++ before) skipped message := by
  cases h with
  | offending => exact .offending
  | premise hbegins ht hviable => exact .premise (hus _ hbegins) ht hviable
  | closing hbegins ht hf ht' hviable =>
    rw [← List.append_assoc]
    exact .closing (hus _ hbegins) ht hf ht' hviable

end Grammar

namespace Reader

open Grammar

variable {α β : Type} {kind : SymbolKind} {allowed : Token → Prop}
  {reported reported' : List Token → List Token → String → Prop}
  {reader member : Reader α} {reader' : Reader β}
  {derives : List Token → α → Prop} {derives' : List Token → β → Prop}
  {t t' : Token} {ts us vs seen rest more : List Token} {f : Formula} {s : Sequent}
  {e e' : ParseFailure} {shape : Bracket}

/-! ### What comes next does not change what was read -/

theorem head?_append_congr {rest' : List Token} (h : rest'.head? = rest.head?) (ms : List Token) :
    (ms ++ rest').head? = (ms ++ rest).head? := by
  cases ms with
  | nil => exact h
  | cons t ms => rfl

theorem members_stable (hsound : Sound member derives) (hstable : Stable member) :
    Stable (members member) := by
  intro us xs rest rest' h hhead
  -- each member uses up the tokens before a comma
  induction hn : us.length using Nat.strongRecOn generalizing us xs with
  | ind n ih =>
    rw [members_eq_ok_iff hsound] at h ⊢
    rcases h with ⟨x, hx, hcomma, rfl⟩ | ⟨x, t, rest₁, ys, hx, ht, hys, rfl⟩
    · refine .inl ⟨x, hstable _ _ _ _ hx hhead, ?_, rfl⟩
      unfold NoComma
      rwa [hhead]
    · obtain ⟨vs, hvs, -⟩ := hsound _ _ _ hx
      obtain ⟨ws, rfl, -⟩ := members_sound hsound _ _ _ hys
      obtain rfl : us = vs ++ t :: ws := List.append_cancel_right (hvs.trans (by simp))
      refine .inr ⟨x, t, ws ++ rest', ys, ?_, ht, ih ws.length ?_ ws ys hys rfl, rfl⟩
      · rw [hvs] at hx
        rw [List.append_assoc]
        exact hstable vs x _ (t :: (ws ++ rest')) hx rfl
      · simp only [List.length_append, List.length_cons] at hn
        omega

theorem nested_reads (hs : DerivesSequent kind us s) (ht : t.kind = .closing shape)
    (rest : List Token) : nested kind shape (us ++ t :: rest) = .ok (s.toForm, rest) := by
  have hread : sequent kind (us ++ t :: rest) = .ok (s, t :: rest) :=
    sequent_reads hs ⟨by simp [ht], by simp [ht]⟩ (by simp [NoComma, ht])
  have hclose : close shape (t :: rest) = .ok ((), rest) := close_eq_ok.mpr ⟨t, rfl, ht⟩
  exact Except.bind_eq_ok.mpr ⟨_, hread, Except.bind_eq_ok.mpr ⟨_, hclose, rfl⟩⟩

theorem anyPremise_stable : Stable (anyPremise kind) := by
  intro us p rest rest' h hhead
  rcases premise_eq_ok h with
    ⟨f, hf, rfl⟩ | ⟨depth, shape, t, ws, t', s, -, hts, ht, hs, ht', rfl⟩
  · exact anyPremise_of_ok (expression_stable _ _ _ _ hf hhead)
  · -- a sequent in brackets ends with its bracket, whatever comes next
    obtain ⟨vs, rfl, hvs⟩ := sequentOf_sound (premise_sound depth) _ _ _ hs
    obtain rfl : us = t :: (vs ++ [t']) := List.append_cancel_right (hts.trans (by simp))
    obtain ⟨e, he⟩ := expression_of_nested ht hvs ht' rest'
    rw [List.cons_append, List.append_assoc, List.singleton_append, anyPremise_of_opening he ht]
    exact nested_reads hvs ht' rest'

theorem premisesOf_sound : Sound (premisesOf (anyPremise kind)) (Antecedent kind) := by
  intro ts ps rest h
  rcases head_cases (·.kind = .entails) ts with hentails | ⟨t, us, rfl, hkind⟩
  · rw [premisesOf_eq_members hentails] at h
    obtain ⟨us, rfl, hps⟩ := members_sound anyPremise_sound _ _ _ h
    exact ⟨us, rfl, .inr hps⟩
  · rw [premisesOf_of_entails hkind] at h
    cases h
    exact ⟨[], rfl, .inl ⟨rfl, rfl⟩⟩

theorem premisesOf_stable : Stable (premisesOf (anyPremise kind)) := by
  intro us ps rest rest' h hhead
  have hheads := head?_append_congr hhead us
  rcases head_cases (·.kind = .entails) (us ++ rest) with hentails | ⟨t, vs, hvs, hkind⟩
  · rw [premisesOf_eq_members hentails] at h
    rw [premisesOf_eq_members (hheads ▸ hentails)]
    exact members_stable anyPremise_sound anyPremise_stable _ _ _ _ h hhead
  · obtain ⟨ws, hws⟩ : ∃ ws, us ++ rest' = t :: ws := by
      rw [hvs] at hheads
      exact List.head?_eq_some_iff.mp hheads
    rw [hvs, premisesOf_of_entails hkind] at h
    obtain ⟨rfl, hrest⟩ := Prod.mk.inj (Except.ok.inj h)
    -- no premise is read, so that all tokens are left
    have hnil : us = [] := by
      have hlength := congrArg List.length (hvs.trans hrest)
      simpa using hlength
    subst hnil
    rw [hws, premisesOf_of_entails hkind, ← hws]
    rfl

theorem sequent_stable : Stable (sequent kind) := by
  intro us s rest rest' h hhead
  rw [sequent_read_iff] at h ⊢
  obtain ⟨ps, t, rest₁, cs, hps, ht, hcs, rfl⟩ := h
  obtain ⟨vs, hvs, -⟩ := premisesOf_sound _ _ _ hps
  obtain ⟨ws, rfl, -⟩ := members_sound expression_sound _ _ _ hcs
  obtain rfl : us = vs ++ t :: ws := List.append_cancel_right (hvs.trans (by simp))
  refine ⟨ps, t, ws ++ rest', cs, ?_, ht, ?_, rfl⟩
  · rw [hvs] at hps
    rw [List.append_assoc]
    exact premisesOf_stable vs ps _ (t :: (ws ++ rest')) hps rfl
  · exact members_stable expression_sound expression_stable _ _ _ _ hcs hhead

/-! ### Where readers of sequents stop -/

/-- The reader fails after the tokens `before` and `skipped`, which are the start of something that
    can be derived, and reports the place after `before`. -/
structure StopsAt (allowed : Token → Prop) (reported : List Token → List Token → String → Prop)
    (reader : Reader α) (derives : List Token → α → Prop) (e : ParseFailure)
    (before skipped rest : List Token) : Prop where
  rest_eq : e.rest = skipped ++ rest
  viable : Viable allowed derives (before ++ skipped)
  blocked : Blocked reader (before ++ skipped) rest
  reported : reported before skipped e.message

/-- There is a place at which the reader fails on the tokens. -/
def Stops (allowed : Token → Prop) (reported : List Token → List Token → String → Prop)
    (reader : Reader α) (derives : List Token → α → Prop) (ts : List Token) (e : ParseFailure) :
    Prop :=
  ∃ before skipped rest, ts = before ++ (skipped ++ rest) ∧
    StopsAt allowed reported reader derives e before skipped rest

/-- Where a part stops, the whole stops, if it has got to the part. -/
theorem Stops.lift (h : Stops allowed reported reader derives ts e) (us : List Token)
    (hviable : ∀ vs, Viable allowed derives vs → Viable allowed derives' (us ++ vs))
    (hblocked : ∀ vs rest, vs ++ rest = ts → Blocked reader vs rest →
      Blocked reader' (us ++ vs) rest)
    (hreported : ∀ before skipped message, reported before skipped message →
      reported' (us ++ before) skipped message) :
    Stops allowed reported' reader' derives' (us ++ ts) e := by
  obtain ⟨before, skipped, rest, rfl, hstops⟩ := h
  refine ⟨us ++ before, skipped, rest, by simp, hstops.rest_eq, ?_, ?_, ?_⟩
  · rw [List.append_assoc]
    exact hviable _ hstops.viable
  · rw [List.append_assoc]
    exact hblocked _ _ (by simp) hstops.blocked
  · exact hreported _ _ _ hstops.reported

/-- An expression stops where the error stands. -/
theorem expression_stops (hallowed : Completing allowed) (h : expression kind ts = .error e) :
    Stops allowed (fun _ skipped _ => skipped = []) (expression kind) (Derives kind .expression)
      ts e := by
  obtain ⟨seen, hts, hrefuses⟩ := expression_refuses hallowed h
  refine ⟨seen, [], e.rest, hts, rfl, ?_, ?_, rfl⟩
  · rw [List.append_nil]
    exact hrefuses.viable
  · rw [List.append_nil]
    exact hrefuses.blocked

theorem members_stops (hsound : Sound member derives) (hstable : Stable member)
    (hreported : ∀ us x t before skipped message, derives us x → t.kind = .comma →
      reported before skipped message → reported (us ++ [t] ++ before) skipped message)
    (hmember : ∀ us e, us.length ≤ ts.length → member us = .error e →
      Stops allowed reported member derives us e)
    (h : members member ts = .error e) :
    Stops allowed reported (members member) (Listed derives) ts e := by
  induction hn : ts.length using Nat.strongRecOn generalizing ts with
  | ind n ih =>
    rcases (members_eq_error_iff hsound).mp h with hx | ⟨x, t, rest, hx, ht, hrest⟩
    · -- the first member stops
      refine (hmember ts e (Nat.le_refl _) hx).lift [] (fun _ hvs => hvs.listed) ?_
        (fun _ _ _ hm => hm)
      intro vs rest _ hblocked rest' hhead
      obtain ⟨e', he'⟩ := hblocked rest' hhead
      exact ⟨e', (members_eq_error_iff hsound).mpr (.inl he')⟩
    · -- a member after the first comma stops
      obtain ⟨us, rfl, hus⟩ := hsound _ _ _ hx
      simp only [List.length_append, List.length_cons] at hn
      have hstops := ih rest.length (by omega)
        (fun vs e hle hvs => hmember vs e (by simp; omega) hvs) hrest rfl
      rw [List.append_cons]
      refine hstops.lift (us ++ [t]) (fun _ hvs => hvs.more hus ht) ?_
        (fun _ _ _ hm => hreported _ _ _ _ _ _ hus ht hm)
      intro vs rest₁ _ hblocked rest' hhead
      obtain ⟨e', he'⟩ := hblocked rest' hhead
      refine ⟨e', (members_eq_error_iff hsound).mpr (.inr ⟨x, t, vs ++ rest', ?_, ht, he'⟩)⟩
      rw [List.append_assoc, List.append_assoc]
      exact hstable us x _ (t :: (vs ++ rest')) hx rfl

theorem sequent_stops (hallowed : CompletingSequents allowed)
    (hpremise : ∀ us e, us.length ≤ ts.length → anyPremise kind us = .error e →
      Stops allowed (Reported allowed kind) (anyPremise kind) (DerivesPremise kind) us e)
    (h : sequent kind ts = .error e) :
    Stops allowed (Reported allowed kind) (sequent kind) (DerivesSequent kind) ts e := by
  rcases sequent_eq_error_iff.mp h with
    hps | ⟨ps, rest, hps, hturnstile | ⟨t, rest, rfl, ht, hcs⟩⟩
  · -- a premise stops, of which there are some
    have hentails : ∀ t ∈ ts.head?, t.kind ≠ .entails := by
      intro t ht hkind
      obtain ⟨us, rfl⟩ := List.head?_eq_some_iff.mp ht
      rw [premisesOf_of_entails hkind] at hps
      cases hps
    rw [premisesOf_eq_members hentails] at hps
    have hstops := members_stops anyPremise_sound anyPremise_stable
      (fun us p t before skipped message hus ht hm => Reported.append
        (fun b hb => .next hus ht hb) hm) hpremise hps
    refine hstops.lift [] (fun _ hvs => hvs.conditional hallowed) ?_ (fun _ _ _ hm => hm)
    intro vs rest hts hblocked rest' hhead
    obtain ⟨e', he'⟩ := hblocked rest' hhead
    refine ⟨e', sequent_eq_error_iff.mpr (.inl ?_)⟩
    rw [premisesOf_eq_members]
    · exact he'
    · rw [List.nil_append, head?_append_congr hhead, hts]
      exact hentails
  · -- no turnstile comes after the premises
    obtain ⟨hnot, rfl⟩ := turnstile_eq_error_iff.mp hturnstile
    obtain ⟨us, rfl, hus⟩ := premisesOf_sound _ _ _ hps
    have hviable : Viable allowed (Listed (DerivesPremise kind)) us := by
      rcases hus with ⟨rfl, -⟩ | hlisted
      · exact (viable_nil hallowed.toCompleting).expression.premise.listed
      · exact viable_of_derives hlisted
    refine ⟨us, [], rest, rfl, rfl, ?_, ?_, .offending⟩
    · rw [List.append_nil]
      exact hviable.conditional hallowed
    · rw [List.append_nil]
      intro rest' hhead
      have hfails := turnstile_eq_error_iff.mpr ⟨hhead ▸ hnot, rfl⟩
      exact ⟨_, sequent_eq_error_iff.mpr
        (.inr ⟨ps, rest', premisesOf_stable _ _ _ _ hps hhead, .inl hfails⟩)⟩
  · -- a conclusion stops
    obtain ⟨us, rfl, hus⟩ := premisesOf_sound _ _ _ hps
    have hstops := members_stops expression_sound expression_stable
      (fun _ _ _ _ _ _ _ _ hm => hm)
      (fun vs e _ hvs => expression_stops hallowed.toCompleting hvs) hcs
    rw [List.append_cons]
    refine hstops.lift (us ++ [t]) (fun _ hvs => hvs.concluded hus ht) ?_ ?_
    · intro vs rest₁ _ hblocked rest' hhead
      obtain ⟨e', he'⟩ := hblocked rest' hhead
      refine ⟨e', sequent_eq_error_iff.mpr
        (.inr ⟨ps, t :: (vs ++ rest'), ?_, .inr ⟨t, vs ++ rest', rfl, ht, he'⟩⟩)⟩
      rw [List.append_assoc, List.append_assoc]
      exact premisesOf_stable us ps _ (t :: (vs ++ rest')) hps rfl
    · rintro before skipped message rfl
      exact .offending

/-! ### Where premises stop -/

/-- Tokens that were seen next are part of those that block the reader. -/
theorem Blocked.later (h : Blocked reader seen (more ++ rest)) :
    Blocked reader (seen ++ more) rest := by
  intro rest' hhead
  rw [List.append_assoc]
  exact h _ (head?_append_congr hhead more)

theorem startsTerm_of_viable (h : Viable allowed (Derives kind .expression) (t :: ts)) :
    StartsTerm t := by
  obtain ⟨us, f, -, hf⟩ := h
  -- otherwise the reader of terms would fail at once on what is derived
  by_contra hnot
  have hfails : anyTerm kind (t :: (ts ++ us)) = .error ⟨"Term expected.", t :: (ts ++ us)⟩ := by
    refine anyTerm_of_not_startsTerm ?_
    intro t' ht'
    cases ht'
    exact hnot
  have hread : expression kind (t :: (ts ++ us)) = .ok (f, []) := expression_eq_ok_iff.mpr hf
  rw [expression_eq_error_iff.mpr (.inl hfails)] at hread
  cases hread

/-- A premise that does not start with a bracket stops where its expression does, and is reported
    where it begins. -/
theorem anyPremise_stops_of_not_opening
    (h : Refuses allowed (expression kind) (Derives kind .expression) seen e')
    (hnot : ∀ t ∈ (seen ++ e'.rest).head?, ∀ shape, t.kind ≠ .opening shape) :
    StopsAt allowed (Reported allowed kind) (anyPremise kind) (DerivesPremise kind)
      ⟨"'(' expected.", seen ++ e'.rest⟩ [] seen e'.rest := by
  constructor
  case rest_eq => rfl
  case viable => exact h.viable.premise
  case blocked =>
    intro rest' hhead
    obtain ⟨e₁, he₁⟩ := h.blocked rest' hhead
    refine ⟨_, anyPremise_of_not_opening he₁ ?_⟩
    rw [head?_append_congr hhead]
    exact hnot
  case reported =>
    cases seen with
    | nil => exact .offending
    | cons t more =>
      refine .premise .start ?_ h.viable
      cases startsTerm_of_viable h.viable with
      | prefixed ht => exact .inr ⟨_, ht⟩
      | opening ht => exact absurd ht (hnot t rfl _)
      | symbol ht => exact .inl ht

/-- A sequent in brackets stops where the sequent does, or at its end without the bracket. -/
theorem nested_stops (hallowed : CompletingSequents allowed) (ht : t.kind = .opening shape)
    (hsequent : ∀ e, sequent kind us = .error e →
      Stops allowed (Reported allowed kind) (sequent kind) (DerivesSequent kind) us e)
    (h : nested kind shape us = .error e) :
    Stops allowed (fun before => Reported allowed kind (t :: before)) (nested kind shape)
      (fun vs => DerivesPremise kind (t :: vs)) us e := by
  rcases nested_eq_error_iff.mp h with hfails | ⟨s, rest, hread, hclose⟩
  · refine (hsequent e hfails).lift [] (fun _ hvs => hvs.nested hallowed ht) ?_ ?_
    · intro vs rest _ hblocked rest' hhead
      obtain ⟨e', he'⟩ := hblocked rest' hhead
      exact ⟨e', nested_eq_error_iff.mpr (.inl he')⟩
    · intro before skipped message hreported
      show Reported allowed kind ([t] ++ before) skipped message
      exact hreported.append fun b hb => .inner ht hb
  · obtain ⟨hnot, rfl⟩ := close_eq_error_iff.mp hclose
    obtain ⟨vs, rfl, hvs⟩ := sequent_sound _ _ _ hread
    refine ⟨vs, [], rest, rfl, rfl, ?_, ?_, .offending⟩
    · rw [List.append_nil]
      exact Viable.nested hallowed ht (viable_of_derives hvs)
    · rw [List.append_nil]
      intro rest' hhead
      have hfails := close_eq_error_iff.mpr ⟨hhead ▸ hnot, rfl⟩
      exact ⟨_, nested_eq_error_iff.mpr
        (.inr ⟨s, rest', sequent_stable _ _ _ _ hread hhead, hfails⟩)⟩

/-- Where an expression in brackets is read as a sequent, a turnstile is missing at its end. -/
theorem nested_of_group (hf : Derives kind .expression us f) (ht : t.kind = .closing shape)
    (shape' : Bracket) (rest : List Token) :
    nested kind shape' (us ++ t :: rest) = .error ⟨"'|-' expected.", t :: rest⟩ := by
  have hread : anyPremise kind (us ++ t :: rest) = .ok (.formula f, t :: rest) :=
    anyPremise_of_ok (expression_reads hf (t :: rest) ⟨by simp [ht], by simp [ht]⟩)
  have hmembers : members (anyPremise kind) (us ++ t :: rest) = .ok ([.formula f], t :: rest) :=
    (members_eq_ok_iff anyPremise_sound).mpr (.inl ⟨_, hread, by simp [NoComma, ht], rfl⟩)
  have hentails : ∀ t' ∈ (us ++ t :: rest).head?, t'.kind ≠ .entails := by
    obtain ⟨t₁, us, rfl⟩ := List.exists_cons_of_ne_nil hf.ne_nil
    intro t' ht'
    cases ht'
    exact hf.kind_ne_entails _ List.mem_cons_self
  have hturnstile : turnstile (t :: rest) = .error ⟨"'|-' expected.", t :: rest⟩ :=
    turnstile_eq_error_iff.mpr ⟨by simp [ht], rfl⟩
  rw [← premisesOf_eq_members hentails] at hmembers
  exact nested_eq_error_iff.mpr (.inl (sequent_eq_error_iff.mpr
    (.inr ⟨_, _, hmembers, .inl hturnstile⟩)))

/-- An expression is not blocked by a bracket at its start. -/
theorem exists_seen_of_opening (hallowed : Completing allowed) (ht : t.kind = .opening shape)
    (h : Blocked (expression kind) seen rest) (hts : t :: us = seen ++ rest) :
    ∃ more, seen = t :: more ∧ us = more ++ rest := by
  cases seen with
  | cons t₁ more =>
    obtain ⟨rfl, rfl⟩ := List.cons.inj hts
    exact ⟨more, rfl, rfl⟩
  | nil =>
    -- something that starts with the bracket is read
    have hviable : Viable allowed (Derives kind .expression) [t] :=
      ((viable_nil hallowed).expression.opened hallowed ht).expression
    obtain ⟨vs, f, -, hf⟩ := hviable
    obtain ⟨e, he⟩ := h (t :: vs) (by rw [← List.nil_append rest, ← hts]; rfl)
    have hread : expression kind (t :: vs) = .ok (f, []) := expression_eq_ok_iff.mpr hf
    rw [List.nil_append, hread] at he
    cases he

theorem blocked_of_opening (ht : t.kind = .opening shape)
    (h : Blocked (expression kind) (t :: seen) rest)
    (hnested : Blocked (nested kind shape) seen rest) :
    Blocked (anyPremise kind) (t :: seen) rest := by
  intro rest' hhead
  obtain ⟨e₁, he₁⟩ := h rest' hhead
  obtain ⟨e₂, he₂⟩ := hnested rest' hhead
  exact ⟨e₂, (anyPremise_of_opening he₁ ht).trans he₂⟩

/-- What starts an expression in a bracket does not block a sequent there. -/
theorem not_blocked_of_viable (hallowed : CompletingSequents allowed)
    (h : Viable allowed (Derives kind .expression) (seen ++ t :: more)) :
    ¬ Blocked (nested kind shape) seen (t :: rest) := by
  intro hblocked
  -- the expression is completed to a premise, and the premise to a sequent in brackets
  obtain ⟨vs, s, -, hs⟩ := h.premise.listed.conditional hallowed
  obtain ⟨t', -, ht'⟩ := hallowed.closing shape
  obtain ⟨e, he⟩ := hblocked (t :: (more ++ vs ++ [t'])) rfl
  have hread := nested_reads hs ht' []
  have hall : seen ++ t :: more ++ vs ++ [t'] = seen ++ t :: (more ++ vs ++ [t']) := by simp
  rw [hall, he] at hread
  cases hread

/-- Where an expression stops in a bracket, a sequent in the bracket gets as far or farther. -/
theorem exists_skipped_of_viable (hallowed : CompletingSequents allowed)
    (h : Viable allowed (Derives kind .expression) more) {rest' : List Token}
    (hblocked : Blocked (nested kind shape) seen rest) (hts : more ++ rest' = seen ++ rest) :
    ∃ ms, seen = more ++ ms ∧ rest' = ms ++ rest := by
  rcases List.append_eq_append_iff.mp hts with hfarther | ⟨ms, rfl, rfl⟩
  · exact hfarther
  · cases ms with
    | nil => exact ⟨[], by simp, rfl⟩
    | cons t ms => exact absurd hblocked (not_blocked_of_viable hallowed h)

/-- A premise that starts with a bracket stops where both readings of it have stopped. It is
    reported where the reading as a sequent has, which gets as far as that as an expression unless
    the expression gets out of the bracket. -/
theorem anyPremise_stops_of_opening (hallowed : CompletingSequents allowed)
    (ht : t.kind = .opening shape)
    (hrefuses : Refuses allowed (expression kind) (Derives kind .expression) seen e')
    (hts : t :: us = seen ++ e'.rest) (hnested : nested kind shape us = .error e)
    (hstops : Stops allowed (fun before => Reported allowed kind (t :: before)) (nested kind shape)
      (fun vs => DerivesPremise kind (t :: vs)) us e) :
    Stops allowed (Reported allowed kind) (anyPremise kind) (DerivesPremise kind) (t :: us) e := by
  obtain ⟨more, rfl, rfl⟩ := exists_seen_of_opening hallowed.toCompleting ht hrefuses.blocked hts
  -- the bracket is still open where the expression stops, or has been closed before
  have hinside : Viable allowed (Derives kind .expression) more ∨
      ∃ vs t' ms f, more = vs ++ t' :: ms ∧ Derives kind .expression vs f ∧
        t'.kind = .closing shape := by
    obtain ⟨w, g, hw, hg⟩ := hrefuses.viable
    obtain ⟨vs, t', ms, f, hsplit, hf, ht'⟩ := Derives.exists_group ht hg
    rcases List.append_eq_append_iff.mp hsplit with ⟨m, rfl, rfl⟩ | ⟨m, rfl, hms⟩
    · refine .inl ⟨m, f, ?_, hf⟩
      exact fun u hu => hw u (List.mem_append_left _ hu)
    · cases m with
      | nil =>
        rw [List.append_nil]
        exact .inl (viable_of_derives hf)
      | cons t₁ m =>
        obtain ⟨rfl, -⟩ := List.cons.inj hms
        exact .inr ⟨vs, t', m, f, rfl, hf, ht'⟩
  rcases hinside with hviable | ⟨vs, t', ms, f, rfl, hf, ht'⟩
  · -- the sequent gets farther, and what blocks it blocks the expression, too
    obtain ⟨before, skipped, rest, hus, hstops⟩ := hstops
    obtain ⟨ms, hseen, hrest⟩ := exists_skipped_of_viable hallowed hviable hstops.blocked
      (hus.trans (List.append_assoc _ _ _).symm)
    refine ⟨t :: before, skipped, rest, by rw [hus]; rfl, hstops.rest_eq, hstops.viable, ?_,
      hstops.reported⟩
    have hblocked := hrefuses.blocked
    rw [hrest] at hblocked
    have hlater := hblocked.later
    rw [List.cons_append, ← hseen] at hlater
    exact blocked_of_opening ht hlater hstops.blocked
  · -- the expression gets out of the bracket, and the sequent stops at its end
    have hfails : ∀ rest, nested kind shape (vs ++ t' :: ms ++ rest) =
        .error ⟨"'|-' expected.", t' :: (ms ++ rest)⟩ := by
      intro rest
      rw [List.append_assoc]
      exact nested_of_group hf ht' shape (ms ++ rest)
    rw [hfails] at hnested
    cases hnested
    refine ⟨t :: vs, t' :: ms, e'.rest, by simp, rfl, hrefuses.viable.premise, ?_,
      .closing .start ht hf ht' hrefuses.viable⟩
    exact blocked_of_opening ht hrefuses.blocked fun rest' _ => ⟨_, hfails rest'⟩

theorem anyPremise_stops (hallowed : CompletingSequents allowed)
    (h : anyPremise kind ts = .error e) :
    Stops allowed (Reported allowed kind) (anyPremise kind) (DerivesPremise kind) ts e := by
  -- a sequent in a bracket has fewer tokens
  induction hn : ts.length using Nat.strongRecOn generalizing ts e with
  | ind n ih =>
    cases hexpression : expression kind ts with
    | ok result =>
      rw [anyPremise_of_ok hexpression] at h
      cases h
    | error e' =>
      obtain ⟨seen, hts, hrefuses⟩ := expression_refuses hallowed.toCompleting hexpression
      rcases head_cases (fun t => ∃ shape, t.kind = .opening shape) ts with
        hnone | ⟨t, us, rfl, shape, hkind⟩
      · have hopening : ∀ t ∈ ts.head?, ∀ shape, t.kind ≠ .opening shape :=
          fun t ht shape hkind => hnone t ht ⟨shape, hkind⟩
        rw [anyPremise_of_not_opening hexpression hopening] at h
        cases h
        subst hts
        exact ⟨[], seen, e'.rest, rfl, anyPremise_stops_of_not_opening hrefuses hopening⟩
      · rw [anyPremise_of_opening hexpression hkind] at h
        rw [List.length_cons] at hn
        have hsequent : ∀ e, sequent kind us = .error e →
            Stops allowed (Reported allowed kind) (sequent kind) (DerivesSequent kind) us e :=
          fun e => sequent_stops hallowed fun vs e hle hvs => ih vs.length (by omega) hvs rfl
        exact anyPremise_stops_of_opening hallowed hkind hrefuses hts h
          (nested_stops hallowed hkind hsequent h)

/-! ### Whole token lists -/

theorem not_offending_of_viable (h : Viable allowed derives (seen ++ t :: more)) (eof : Token) :
    ¬ Offending derives eof seen t := by
  intro hoffending
  obtain ⟨us, x, -, hx⟩ := h
  refine hoffending _ x hx ⟨more ++ us ++ [eof], ?_⟩
  simp

/-- Tokens that are no sequent are the start of one up to some token with which they are not, and
    the error is reported there or at an earlier token. -/
theorem sequent_refused (hallowed : CompletingSequents allowed)
    (h : (sequent kind).toEnd ts = .error e) :
    ∃ before skipped rest, ts = before ++ skipped ++ rest ∧ e.rest = skipped ++ rest ∧
      Viable allowed (DerivesSequent kind) (before ++ skipped) ∧
        Excluded (DerivesSequent kind) (before ++ skipped) rest ∧
          Reported allowed kind before skipped e.message := by
  have hreads : ∀ us s, DerivesSequent kind us s → sequent kind us = .ok (s, []) :=
    fun us s hs => sequent_eq_ok_iff.mpr hs
  rcases toEnd_eq_error_iff.mp h with hfails | ⟨s, rest, hread, hne, rfl⟩
  · obtain ⟨before, skipped, rest, hts, hstops⟩ :=
      sequent_stops hallowed (fun us e _ hus => anyPremise_stops hallowed hus) hfails
    exact ⟨before, skipped, rest, by rw [hts, List.append_assoc], hstops.rest_eq, hstops.viable,
      hstops.blocked.excluded hreads, hstops.reported⟩
  · -- the sequent ends before the next token
    obtain ⟨seen, rfl, hs⟩ := sequent_sound _ _ _ hread
    refine ⟨seen, [], rest, by simp, rfl, viable_of_derives (by simpa using hs), ?_, .offending⟩
    rw [List.append_nil]
    exact sequent_stable.excluded hreads hread hne

end Reader

namespace Language

open Grammar Reader

variable {lang : Language} {kind : SymbolKind} {source : String} {e : SyntaxError}

/-- The token stands in some text, or is a turnstile. -/
def HasSequentToken (lang : Language) (t : Token) : Prop := lang.HasToken t ∨ t.kind = .entails

theorem completingSequents_hasSequentToken (lang : Language) :
    CompletingSequents lang.HasSequentToken where
  symbol := by
    obtain ⟨t, ht, hsymbol⟩ := lang.completing_hasToken.symbol
    exact ⟨t, .inl ht, hsymbol⟩
  closing := by
    intro shape
    obtain ⟨t, ht, hclosing⟩ := lang.completing_hasToken.closing shape
    exact ⟨t, .inl ht, hclosing⟩
  entails := ⟨⟨.entails, "", .start⟩, .inr rfl, rfl⟩

/-- **Where errors in sequents stand.** If a text is not read as a sequent, the tokens before the
    error are the start of one. More tokens, `skipped`, can come next, and the token `t` after them
    is the first one that cannot. The error stands at `t` if no tokens are skipped; otherwise a
    premise is wrong at `t`, and the error stands where the premise begins, or at the end of the
    brackets that it begins with. So the error stands at the offending token exactly if no tokens
    are skipped. -/
theorem parseSequent_error_place (h : lang.parseSequent kind source = .error e) :
    ∃ before r after skipped t more, e.PointsAt lang source before r after ∧
      r :: after = skipped ++ t :: more ∧
      Viable lang.HasSequentToken (DerivesSequent kind) before ∧
      Viable lang.HasSequentToken (DerivesSequent kind) (before ++ skipped) ∧
      Offending (DerivesSequent kind) (TokenStream.ofText lang source).eof (before ++ skipped) t ∧
      Reported lang.HasSequentToken kind before skipped e.message ∧
      (Offending (DerivesSequent kind) (TokenStream.ofText lang source).eof before r ↔
        skipped = []) := by
  obtain ⟨e', hend, rfl⟩ := read_eq_error h
  obtain ⟨before, skipped, rest, hscan, hrest, hviable, hexcluded, hreported⟩ :=
    sequent_refused lang.completingSequents_hasSequentToken hend
  have hmem : ∀ t ∈ skipped ++ rest, t ∈ lang.scan source := by
    intro t ht
    rw [hscan, List.append_assoc]
    exact List.mem_append_right before ht
  have hoffending : Offending (DerivesSequent kind) (TokenStream.ofText lang source).eof
      (before ++ skipped) (rest.headD (TokenStream.ofText lang source).eof) := by
    refine hexcluded.offending rfl ?_ ?_
    · exact fun t ht => kind_ne_eof_of_mem_scan (hmem t (List.mem_append_right skipped ht))
    · exact fun us s hs => SequentOf.kind_ne_eof hs fun vs p hp => hp.kind_ne_eof
  obtain ⟨after, hpoints⟩ :=
    TokenStream.pointsAt_error (hscan.trans (List.append_assoc _ _ _)) e'.message
  rw [← hrest] at hpoints
  generalize e'.rest.headD (TokenStream.ofText lang source).eof = r at hpoints
  -- the tokens from the error on are those skipped and those left, with the one at the end
  have htokens : r :: after = skipped ++ (rest ++ [(TokenStream.ofText lang source).eof]) := by
    refine List.append_cancel_left (hpoints.split.symm.trans ?_)
    show lang.scan source ++ _ = _
    rw [hscan]
    simp
  obtain ⟨more, hmore⟩ : ∃ more, rest ++ [(TokenStream.ofText lang source).eof] =
      rest.headD (TokenStream.ofText lang source).eof :: more := by
    cases rest with
    | nil => exact ⟨[], rfl⟩
    | cons t rest => exact ⟨rest ++ [(TokenStream.ofText lang source).eof], rfl⟩
  rw [hmore] at htokens
  refine ⟨before, r, after, skipped, _, more, hpoints, htokens, ?_, hviable, hoffending,
    hreported, ?_⟩
  · exact hviable.of_append fun u hu => .inl ⟨source, hmem u (List.mem_append_left rest hu)⟩
  · cases skipped with
    | nil =>
      obtain ⟨rfl, -⟩ := List.cons.inj htokens
      rw [List.append_nil] at hoffending
      exact iff_of_true hoffending rfl
    | cons t skipped =>
      obtain ⟨rfl, -⟩ := List.cons.inj htokens
      exact iff_of_false (not_offending_of_viable hviable _) (List.cons_ne_nil _ _)

/-- In `(A) & |- B` the turnstile is the first token that cannot come next, but the error stands at
    the closing bracket. -/
theorem parseSequent_error_place_closing :
    horseshoe.parseSequent .proposition "(A) & |- B" =
        .error ⟨"'|-' expected.", 0, 2, "(A) & |- B"⟩ ∧
      ∃ before r after skipped t more,
        SyntaxError.PointsAt ⟨"'|-' expected.", 0, 2, "(A) & |- B"⟩ horseshoe "(A) & |- B"
          before r after ∧
        r :: after = skipped ++ t :: more ∧
        Viable horseshoe.HasSequentToken (DerivesSequent .proposition) (before ++ skipped) ∧
        Offending (DerivesSequent .proposition) (TokenStream.ofText horseshoe "(A) & |- B").eof
          (before ++ skipped) t ∧
        Reported horseshoe.HasSequentToken .proposition before skipped "'|-' expected." := by
  have hparse : horseshoe.parseSequent .proposition "(A) & |- B" =
      .error ⟨"'|-' expected.", 0, 2, "(A) & |- B"⟩ := by rfl
  obtain ⟨before, r, after, skipped, t, more, hpoints, htokens, -, hviable, hoffending,
    hreported, -⟩ := parseSequent_error_place hparse
  exact ⟨hparse, before, r, after, skipped, t, more, hpoints, htokens, hviable, hoffending,
    hreported⟩

/-- In `A & |- B` the error stands at the atom `A` at the start, although sequents start with it. -/
theorem premise_error_at_its_start :
    horseshoe.parseSequent .proposition "A & |- B" =
        .error ⟨"'(' expected.", 0, 0, "A & |- B"⟩ ∧
      ∃ r after us s, (TokenStream.ofText horseshoe "A & |- B").toList = r :: after ∧
        r.position = ⟨0, 0, 0⟩ ∧ DerivesSequent .proposition us s ∧
          [] ++ [r] <+: us ++ [(TokenStream.ofText horseshoe "A & |- B").eof] := by
  have hparse : horseshoe.parseSequent .proposition "A |- B" =
      .ok ⟨[.formula (.proposition "A")], [.proposition "B"]⟩ := by rfl
  refine ⟨by rfl, ⟨.symbol, "A", ⟨0, 0, 0⟩⟩, _, horseshoe.scan "A |- B", _, rfl, rfl,
    parseSequent_eq_ok_iff.mp hparse, ?_⟩
  exact ⟨_, rfl⟩

end Language

end NaturalDeduction
