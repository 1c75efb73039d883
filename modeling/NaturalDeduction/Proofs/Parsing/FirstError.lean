import NaturalDeduction.Proofs.Parsing.Unbounded
import NaturalDeduction.Proofs.Scanning.Positions

/-! # The first token that cannot continue a formula

    Where a text is no formula, the error stands at the first token with which
    no formula goes on.

    * **Starts**: tokens are viable if something can be derived from them and
      more tokens of the language. Every language has names for atoms, and every
      bracket can be closed, so that whatever the readers have taken up can be
      completed.
    * **Where readers stop**: a reader that fails has looked at no token beyond
      the one at which it fails. So it fails on all tokens that are the same up
      to there (`Blocked`), and none of them can be derived, since all that can
      be derived is read.
-/

namespace NaturalDeduction

namespace Grammar

/-! ### Starts of what can be derived -/

variable {α : Type} {kind : SymbolKind} {allowed : Token → Prop} {derives : List Token → α → Prop}
  {t : Token} {ts us : List Token} {f : Formula} {name : String} {shape : Bracket}

/-- Something can be derived from the tokens and more of those allowed. -/
def Viable (allowed : Token → Prop) (derives : List Token → α → Prop) (ts : List Token) : Prop :=
  ∃ us x, (∀ u ∈ us, allowed u) ∧ derives (ts ++ us) x

/-- The tokens allowed are enough to complete a formula. -/
structure Completing (allowed : Token → Prop) : Prop where
  symbol : ∃ t, allowed t ∧ t.kind = .symbol
  closing : ∀ shape, ∃ t, allowed t ∧ t.kind = .closing shape

theorem viable_of_derives {x : α} (h : derives ts x) : Viable allowed derives ts :=
  ⟨[], x, by simp, by simpa using h⟩

theorem viable_nil (hallowed : Completing allowed) : Viable allowed (Derives kind .term) [] := by
  obtain ⟨t, ht, hsymbol⟩ := hallowed.symbol
  exact ⟨[t], _, by simpa using ht, .chain (.bare (.symbol hsymbol))⟩

theorem Viable.prefixed (ht : t.kind = .operator ⟨name, .prefixed⟩)
    (h : Viable allowed (Derives kind .term) ts) :
    Viable allowed (Derives kind .term) (t :: ts) := by
  obtain ⟨us, f, hus, hf⟩ := h
  exact ⟨us, _, hus, .prefixed ht hf⟩

theorem Viable.opened (hallowed : Completing allowed) (ht : t.kind = .opening shape)
    (h : Viable allowed (Derives kind .expression) ts) :
    Viable allowed (Derives kind .term) (t :: ts) := by
  obtain ⟨us, f, hus, hf⟩ := h
  obtain ⟨t', ht', hclosing⟩ := hallowed.closing shape
  refine ⟨us ++ [t'], f, ?_, ?_⟩
  · simpa [or_imp, forall_and] using ⟨hus, ht'⟩
  · rw [List.cons_append, ← List.append_assoc]
    exact .chain (.bare (.group ht hf hclosing))

theorem Viable.expression (h : Viable allowed (Derives kind .term) ts) :
    Viable allowed (Derives kind .expression) ts := by
  obtain ⟨us, f, hus, hf⟩ := h
  exact ⟨us, f, hus, .term hf⟩

theorem Viable.infixed (hf : Derives kind .term us f) (ht : t.kind = .operator ⟨name, .infixed⟩)
    (h : Viable allowed (Derives kind .term) ts) :
    Viable allowed (Derives kind .expression) (us ++ t :: ts) := by
  obtain ⟨vs, g, hvs, hg⟩ := h
  refine ⟨vs, .app ⟨name, .infixed⟩ [f, g], hvs, ?_⟩
  rw [List.append_assoc]
  exact .infixed hf ht hg

end Grammar

namespace Reader

open Grammar

variable {α : Type} {kind : SymbolKind} {allowed : Token → Prop} {reader : Reader α}
  {derives : List Token → α → Prop} {t : Token} {ts us seen rest : List Token} {f : Formula}
  {e : ParseFailure} {name : String} {shape : Bracket}

/-! ### Where readers stop -/

/-- The reader fails at the next token or earlier, whatever comes after it. -/
def Blocked (reader : Reader α) (seen rest : List Token) : Prop :=
  ∀ rest', rest'.head? = rest.head? → ∃ e, reader (seen ++ rest') = .error e

/-- What the readers of formulas say to be missing. -/
def formulaMessages : List String :=
  ["Term expected.", "')' expected.", "']' expected.", "'\x7d' expected.", "EOF expected."]

theorem closer_mem_formulaMessages (shape : Bracket) :
    s!"'{shape.closer}' expected." ∈ formulaMessages := by
  cases shape <;> decide

/-- The reader fails where the tokens stop being the start of something that can be derived. -/
structure Refuses (allowed : Token → Prop) (reader : Reader α) (derives : List Token → α → Prop)
    (seen : List Token) (e : ParseFailure) : Prop where
  viable : Viable allowed derives seen
  blocked : Blocked reader seen e.rest
  message : e.message ∈ formulaMessages

theorem NotNext.congr {fixity : Fixity} {rest' : List Token} (h : NotNext fixity rest)
    (hhead : rest'.head? = rest.head?) : NotNext fixity rest' := by
  unfold NotNext
  rw [hhead]
  exact h

/-- What comes after the next token does not matter to what is read. -/
def Stable (reader : Reader α) : Prop :=
  ∀ us x rest rest', reader (us ++ rest) = .ok (x, rest) → rest'.head? = rest.head? →
    reader (us ++ rest') = .ok (x, rest')

theorem expression_stable : Stable (expression kind) := by
  intro us f rest rest' h hhead
  rw [expression_read_iff] at h ⊢
  rcases h with ⟨hterm, hends⟩ | ⟨vs, t, ws, name, left, right, hus, hf, hl, ht, hr, hrest⟩
  · exact .inl ⟨hterm, hends.1.congr hhead, hends.2.congr hhead⟩
  · exact .inr ⟨vs, t, ws, name, left, right, hus, hf, hl, ht, hr, hrest.congr hhead⟩

theorem refuses_start (hallowed : Completing allowed) (h : ∀ t ∈ ts.head?, ¬ StartsTerm t) :
    Refuses allowed (anyTerm kind) (Derives kind .term) [] ⟨"Term expected.", ts⟩ where
  viable := viable_nil hallowed
  blocked := by
    intro rest' hhead
    exact ⟨_, anyTerm_of_not_startsTerm (hhead ▸ h)⟩
  message := by simp [formulaMessages]

theorem Refuses.prefixed (ht : t.kind = .operator ⟨name, .prefixed⟩)
    (h : Refuses allowed (anyTerm kind) (Derives kind .term) seen e) :
    Refuses allowed (anyTerm kind) (Derives kind .term) (t :: seen) e where
  viable := h.viable.prefixed ht
  blocked := by
    intro rest' hhead
    obtain ⟨e', he'⟩ := h.blocked rest' hhead
    exact ⟨e', (anyTerm_prefixed_eq_error_iff ht).mpr he'⟩
  message := h.message

theorem Refuses.opened (hallowed : Completing allowed) (ht : t.kind = .opening shape)
    (h : Refuses allowed (expression kind) (Derives kind .expression) seen e) :
    Refuses allowed (anyTerm kind) (Derives kind .term) (t :: seen) e where
  viable := h.viable.opened hallowed ht
  blocked := by
    intro rest' hhead
    obtain ⟨e', he'⟩ := h.blocked rest' hhead
    exact ⟨e', (anyTerm_opening_eq_error_iff ht).mpr (.inl he')⟩
  message := h.message

/-- After an expression in a bracket, nothing but the closing bracket can come. -/
theorem refuses_close (hallowed : Completing allowed) (ht : t.kind = .opening shape)
    (hread : expression kind (us ++ rest) = .ok (f, rest)) (hclose : close shape rest = .error e) :
    Refuses allowed (anyTerm kind) (Derives kind .term) (t :: us) e := by
  obtain ⟨hnot, rfl⟩ := close_eq_error_iff.mp hclose
  obtain ⟨vs, hvs, hf⟩ := expression_sound _ _ _ hread
  obtain rfl := List.append_cancel_right hvs
  constructor
  case viable => exact (viable_of_derives hf).opened hallowed ht
  case blocked =>
    intro rest' hhead
    have hfails := close_eq_error_iff.mpr ⟨hhead ▸ hnot, rfl⟩
    exact ⟨_, (anyTerm_opening_eq_error_iff ht).mpr
      (.inr ⟨f, rest', expression_stable _ _ _ _ hread hhead, hfails⟩)⟩
  case message => exact closer_mem_formulaMessages shape

theorem Refuses.ofTerm (h : Refuses allowed (anyTerm kind) (Derives kind .term) seen e) :
    Refuses allowed (expression kind) (Derives kind .expression) seen e where
  viable := h.viable.expression
  blocked := by
    intro rest' hhead
    obtain ⟨e', he'⟩ := h.blocked rest' hhead
    exact ⟨e', expression_eq_error_iff.mpr (.inl he')⟩
  message := h.message

theorem Refuses.infixed (hf : Derives kind .term us f) (ht : t.kind = .operator ⟨name, .infixed⟩)
    (h : Refuses allowed (anyTerm kind) (Derives kind .term) seen e) :
    Refuses allowed (expression kind) (Derives kind .expression) (us ++ t :: seen) e where
  viable := h.viable.infixed hf ht
  blocked := by
    intro rest' hhead
    obtain ⟨e', he'⟩ := h.blocked rest' hhead
    have hleft : anyTerm kind (us ++ t :: (seen ++ rest')) = .ok (f, t :: (seen ++ rest')) :=
      anyTerm_eq_ok_iff.mpr ⟨hf, by simp [ht]⟩
    refine ⟨e', expression_eq_error_iff.mpr (.inr ⟨f, t, name, seen ++ rest', ?_, ht, he'⟩)⟩
    rw [List.append_assoc]
    exact hleft
  message := h.message

/-- An expression is refused where one of its terms is. -/
theorem expression_refuses_of_terms
    (hterm : ∀ us e, us.length ≤ ts.length → anyTerm kind us = .error e →
      ∃ seen, us = seen ++ e.rest ∧ Refuses allowed (anyTerm kind) (Derives kind .term) seen e)
    (h : expression kind ts = .error e) :
    ∃ seen, ts = seen ++ e.rest ∧
      Refuses allowed (expression kind) (Derives kind .expression) seen e := by
  rcases expression_eq_error_iff.mp h with hleft | ⟨left, t, name, rest, hleft, ht, hright⟩
  · obtain ⟨seen, hts, hrefuses⟩ := hterm ts e (Nat.le_refl _) hleft
    exact ⟨seen, hts, hrefuses.ofTerm⟩
  · obtain ⟨us, rfl, hus⟩ := term_sound _ _ _ _ hleft
    obtain ⟨seen, rfl, hrefuses⟩ := hterm rest e (by simp; omega) hright
    exact ⟨us ++ t :: seen, by simp, hrefuses.infixed hus ht⟩

theorem anyTerm_refuses (hallowed : Completing allowed) (h : anyTerm kind ts = .error e) :
    ∃ seen, ts = seen ++ e.rest ∧ Refuses allowed (anyTerm kind) (Derives kind .term) seen e := by
  -- after a prefix operator or a bracket there are fewer tokens
  induction hn : ts.length using Nat.strongRecOn generalizing ts e with
  | ind n ih =>
    rcases head_cases StartsTerm ts with hstarts | ⟨t, us, rfl, hstart⟩
    · rw [anyTerm_of_not_startsTerm hstarts] at h
      cases h
      exact ⟨[], rfl, refuses_start hallowed hstarts⟩
    · rw [List.length_cons] at hn
      cases hstart with
      | prefixed hkind =>
        have hoperand := (anyTerm_prefixed_eq_error_iff hkind).mp h
        obtain ⟨seen, rfl, hrefuses⟩ := ih us.length (by omega) hoperand rfl
        exact ⟨t :: seen, rfl, hrefuses.prefixed hkind⟩
      | opening hkind =>
        rcases (anyTerm_opening_eq_error_iff hkind).mp h with hinner | ⟨f, rest, hinner, hclose⟩
        · obtain ⟨seen, rfl, hrefuses⟩ := expression_refuses_of_terms
            (fun vs e' hle hvs => ih vs.length (by omega) hvs rfl) hinner
          exact ⟨t :: seen, rfl, hrefuses.opened hallowed hkind⟩
        · obtain ⟨seen, rfl, -⟩ := expression_sound _ _ _ hinner
          have hrest := (close_eq_error_iff.mp hclose).2
          exact ⟨t :: seen, by rw [hrest]; rfl, refuses_close hallowed hkind hinner hclose⟩
      | symbol hkind => exact absurd h (anyTerm_symbol_ne_error hkind)

theorem expression_refuses (hallowed : Completing allowed) (h : expression kind ts = .error e) :
    ∃ seen, ts = seen ++ e.rest ∧
      Refuses allowed (expression kind) (Derives kind .expression) seen e :=
  expression_refuses_of_terms (fun _ _ _ hus => anyTerm_refuses hallowed hus) h

/-! ### Whole token lists -/

theorem toEnd_eq_error_iff :
    reader.toEnd ts = .error e ↔ reader ts = .error e ∨
      ∃ x rest, reader ts = .ok (x, rest) ∧ rest ≠ [] ∧ e = ⟨"EOF expected.", rest⟩ := by
  refine Except.bind_eq_error.trans (or_congr_right ?_)
  constructor
  · rintro ⟨⟨x, rest⟩, hread, h⟩
    cases rest with
    | nil => cases h
    | cons t rest => exact ⟨x, t :: rest, hread, by simp, (Except.error.inj h).symm⟩
  · rintro ⟨x, rest, hread, hne, rfl⟩
    obtain ⟨t, rest, rfl⟩ := List.exists_cons_of_ne_nil hne
    exact ⟨(x, t :: rest), hread, rfl⟩

/-- No tokens that go on with the next one can be derived. -/
def Excluded (derives : List Token → α → Prop) (seen rest : List Token) : Prop :=
  ∀ rest' x, rest'.head? = rest.head? → ¬ derives (seen ++ rest') x

/-- Nothing that can be derived starts with the tokens and `t`, even with the token at the end of
    the text after it. -/
def Offending (derives : List Token → α → Prop) (eof : Token) (seen : List Token) (t : Token) :
    Prop :=
  ∀ us x, derives us x → ¬ seen ++ [t] <+: us ++ [eof]

theorem Excluded.offending (h : Excluded derives seen rest) {eof : Token}
    (heof : eof.kind = .eof) (hrest : ∀ t ∈ rest, t.kind ≠ .eof)
    (hderives : ∀ us x, derives us x → ∀ t ∈ us, t.kind ≠ .eof) :
    Offending derives eof seen (rest.headD eof) := by
  rintro us x hx ⟨more, hmore⟩
  -- the next token is the one at the end, or one of those that are derived
  rcases List.eq_nil_or_concat more with rfl | ⟨more, t', rfl⟩
  · rw [List.append_nil] at hmore
    obtain ⟨rfl, hlast⟩ := List.append_inj' hmore rfl
    cases rest with
    | nil => exact h [] x rfl (by simpa using hx)
    | cons t rest =>
      -- a token of the text is not the one at its end
      obtain rfl : t = eof := List.head_eq_of_cons_eq hlast
      exact hrest t List.mem_cons_self heof
  · rw [List.concat_eq_append, ← List.append_assoc] at hmore
    obtain ⟨rfl, -⟩ := List.append_inj' hmore rfl
    cases rest with
    | nil => exact hderives _ x hx eof (by simp) heof
    | cons t rest => exact h (t :: more) x rfl (by simpa using hx)

/-- A token at which a reader fails excludes all that the reader reads. -/
theorem Blocked.excluded (h : Blocked reader seen rest)
    (hreads : ∀ us x, derives us x → reader us = .ok (x, [])) : Excluded derives seen rest := by
  intro rest' x hhead hx
  obtain ⟨e, he⟩ := h rest' hhead
  rw [hreads _ x hx] at he
  cases he

/-- A token that a reader leaves over excludes all that the reader reads to the end. -/
theorem Stable.excluded (h : Stable reader) {x : α}
    (hreads : ∀ us x, derives us x → reader us = .ok (x, []))
    (hread : reader (seen ++ rest) = .ok (x, rest)) (hne : rest ≠ []) :
    Excluded derives seen rest := by
  intro rest' y hhead hy
  -- the reader would leave over the same token, but it reads to the end
  have hstops := h seen x rest rest' hread hhead
  rw [hreads _ y hy] at hstops
  cases hstops
  exact hne (List.head?_eq_none_iff.mp hhead.symm)

/-- Tokens that are no formula are the start of one up to the token at which the error stands, and
    with that token they are not. -/
theorem formula_refused (hallowed : Completing allowed)
    (h : (expression kind).toEnd ts = .error e) :
    ∃ seen, ts = seen ++ e.rest ∧ Viable allowed (Derives kind .expression) seen ∧
      Excluded (Derives kind .expression) seen e.rest ∧ e.message ∈ formulaMessages := by
  have hreads : ∀ us f, Derives kind .expression us f → expression kind us = .ok (f, []) :=
    fun us f hf => expression_eq_ok_iff.mpr hf
  rcases toEnd_eq_error_iff.mp h with hfails | ⟨f, rest, hread, hne, rfl⟩
  · obtain ⟨seen, hts, hrefuses⟩ := expression_refuses hallowed hfails
    exact ⟨seen, hts, hrefuses.viable, hrefuses.blocked.excluded hreads, hrefuses.message⟩
  · -- the formula ends before the next token
    obtain ⟨seen, rfl, hf⟩ := expression_sound _ _ _ hread
    exact ⟨seen, rfl, viable_of_derives hf, expression_stable.excluded hreads hread hne,
      by simp [formulaMessages]⟩

end Reader

namespace Language

open Grammar Reader

variable {lang : Language} {kind : SymbolKind} {source : String} {e : SyntaxError}

/-! ### Tokens of a language -/

/-- The token stands in some text. -/
def HasToken (lang : Language) (t : Token) : Prop := ∃ source, t ∈ lang.scan source

theorem hasToken_of_cuts {w : List Char} (h : Cuts w []) :
    lang.HasToken (lang.token w .start) := by
  refine ⟨String.ofList w, ?_⟩
  have hscan : lang.scanFrom 0 .start (w ++ []) = _ := scanFrom_append h .start
  rw [List.append_nil] at hscan
  rw [scan, String.toList_ofList, hscan]
  exact List.mem_cons_self

/-- Some name is no spelling. -/
theorem exists_lookup_eq_none (lang : Language) :
    ∃ n, lang.lookup (String.ofList (List.replicate (n + 1) 'A')) = none := by
  -- a name that is longer than all spellings together
  let texts := (lang.lexemes.flatMap Lexeme.spellings).map String.toList
  refine ⟨texts.flatten.length, List.find?_eq_none.mpr ?_⟩
  intro l hl hspelled
  have hmem := List.mem_flatMap.mpr ⟨l, hl, List.contains_iff_mem.mp hspelled⟩
  have htext := List.mem_map_of_mem (f := String.toList) hmem
  have hle := (List.sublist_flatten_of_mem htext).length_le
  rw [String.toList_ofList, List.length_replicate] at hle
  exact Nat.not_succ_le_self _ hle

theorem completing_hasToken (lang : Language) : Completing lang.HasToken where
  symbol := by
    obtain ⟨n, hn⟩ := lang.exists_lookup_eq_none
    have hcuts : Cuts (List.replicate (n + 1) 'A') [] :=
      cuts_name (by decide) (fun d hd => List.eq_of_mem_replicate hd ▸ by decide) (by simp)
    refine ⟨_, hasToken_of_cuts hcuts, ?_⟩
    exact kindOf_of_lookup_eq_none hn
  closing := by
    intro shape
    have hcuts : Cuts [shape.closer] [] := by cases shape <;> decide
    refine ⟨_, hasToken_of_cuts hcuts, ?_⟩
    cases shape <;> rfl

theorem kind_ne_eof_of_mem_scan {t : Token} (h : t ∈ lang.scan source) : t.kind ≠ .eof := by
  obtain ⟨w, p, hcuts, rfl⟩ := exists_of_mem_scanFrom h
  exact kindOf_ne_eof hcuts.ne_nil

/-! ### Whole texts -/

theorem read_eq_error {α : Type} {reader : Reader α} (h : lang.read reader source = .error e) :
    ∃ e' : ParseFailure, reader.toEnd (lang.scan source) = .error e' ∧
      e = { TokenStream.ofText lang source with pending := e'.rest }.error e'.message := by
  unfold read at h
  dsimp only at h
  split at h
  · cases h
  · next e' he' => exact ⟨e', he', (Except.error.inj h).symm⟩

/-- **The first token that cannot continue.** If a text is not read as a formula, the error stands
    at a token of the text, possibly the one at its end, and shows the line that this token is in.
    The tokens before it are the start of a formula of the language, and no formula starts with them
    and that token. The error says that a term, a closing bracket or the end is missing, never an
    operator: every token that is one spells it. -/
theorem parseFormula_first_error (h : lang.parseFormula kind source = .error e) :
    ∃ before t after, e.PointsAt lang source before t after ∧
      Viable lang.HasToken (Derives kind .expression) before ∧
      Offending (Derives kind .expression) (TokenStream.ofText lang source).eof before t ∧
      e.message ∈ formulaMessages ∧ e.message ≠ "Operator expected." ∧
      ∀ t ∈ lang.scan source, ∀ op, t.kind = .operator op → lang.operator? t.lexeme = some op := by
  obtain ⟨e', hend, rfl⟩ := read_eq_error h
  obtain ⟨before, hscan, hviable, hexcluded, hmessage⟩ :=
    formula_refused lang.completing_hasToken hend
  obtain ⟨after, hpoints⟩ := TokenStream.pointsAt_error hscan e'.message
  refine ⟨before, _, after, hpoints, hviable, ?_, hmessage, ?_, ?_⟩
  · refine hexcluded.offending rfl ?_ fun us f hf => hf.kind_ne_eof
    intro t ht
    have hmem : t ∈ lang.scan source := hscan ▸ List.mem_append_right before ht
    exact kind_ne_eof_of_mem_scan hmem
  · intro hoperator
    have hnot : "Operator expected." ∉ formulaMessages := by decide
    exact hnot (hoperator ▸ hmessage)
  · intro t ht op hkind
    exact operator?_of_mem_scanFrom ht hkind

/-- In the text `~(A` with `& B] v C` on the next line, the bracket that does not match is the first
    token that cannot come next. -/
theorem parseFormula_first_error_bracket :
    horseshoe.parseFormula .proposition "~(A\n& B] v C" =
        .error ⟨"')' expected.", 1, 3, "& B] v C"⟩ ∧
      ∃ before t after,
        SyntaxError.PointsAt ⟨"')' expected.", 1, 3, "& B] v C"⟩ horseshoe "~(A\n& B] v C"
          before t after ∧
        Viable horseshoe.HasToken (Derives .proposition .expression) before ∧
        Offending (Derives .proposition .expression)
          (TokenStream.ofText horseshoe "~(A\n& B] v C").eof before t := by
  have hparse : horseshoe.parseFormula .proposition "~(A\n& B] v C" =
      .error ⟨"')' expected.", 1, 3, "& B] v C"⟩ := by rfl
  obtain ⟨before, t, after, hpoints, hviable, hoffending, -⟩ := parseFormula_first_error hparse
  exact ⟨hparse, before, t, after, hpoints, hviable, hoffending⟩

end Language

end NaturalDeduction
