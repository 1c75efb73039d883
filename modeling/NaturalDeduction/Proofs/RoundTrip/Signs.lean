import NaturalDeduction.Proofs.RoundTrip.Spellings

/-! # Which texts survive writing

    What is read from a text need not be over names: a run of signs that spells
    nothing is an atom too. Written again in ASCII, a negation and such an atom
    may become one run of signs, which is read as something else.

    * **Formulas of a text**: operators are those of the language, atoms are
      tokens that spell nothing (`over_of_derives`).
    * **Main statement**: in the horseshoe and the arrow language, the text of a
      formula that was read from any text is read as this formula again exactly
      if no sign of negation is glued to an atom. In Unicode it never is.
-/

namespace NaturalDeduction

open Grammar

variable {lang : Language} {style : Style} {kind : SymbolKind}

/-! ### Formulas of a text -/

/-- The symbol is of a kind, and called by one token that spells nothing. -/
def Symbol.Scanned (lang : Language) (kind : SymbolKind) (s : Symbol) : Prop :=
  s.kind = kind ∧ Cuts s.name.toList [] ∧ lang.kindOf s.name.toList = .symbol

/-- A token that an operator is read from stands for an operator of the language. -/
theorem mem_operators_of_token {t : Token} {op : Operator}
    (ht : ∃ w p, Cuts w [] ∧ t = lang.token w p) (hop : t.kind = .operator op) :
    op ∈ lang.operators := by
  obtain ⟨w, p, _, rfl⟩ := ht
  obtain ⟨l, hlookup, hl⟩ := exists_lookup_of_operator hop
  exact mem_operators_of_lookup hlookup hl

/-- What tokens of a text derive is made of operators of the language and of tokens that spell
    nothing. -/
theorem over_of_derives {part : Part} {ts : List Token} {f : Formula} (h : Derives kind part ts f)
    (hts : ∀ t ∈ ts, ∃ w p, Cuts w [] ∧ t = lang.token w p) :
    f.Over (· ∈ lang.operators) (Symbol.Scanned lang kind) := by
  induction h with
  | @symbol t ht =>
    obtain ⟨w, p, hcuts, rfl⟩ := hts t (by simp)
    have hname : (lang.token w p).lexeme.toList = w := String.toList_ofList
    refine .atom ⟨rfl, ?_, ?_⟩
    · rw [hname]
      exact hcuts
    · rw [hname]
      exact ht
  | group _ _ _ ih => exact ih fun t ht => hts t (by simp [ht])
  | bare _ ih => exact ih hts
  | @postfixed name t _ _ _ ht ih =>
    have hop := mem_operators_of_token (hts t (by simp)) ht
    exact .unary hop rfl (ih fun t ht => hts t (by simp [ht]))
  | chain _ ih => exact ih hts
  | @prefixed name t _ _ ht _ ih =>
    have hop := mem_operators_of_token (hts t (by simp)) ht
    exact .unary hop rfl (ih fun t ht => hts t (by simp [ht]))
  | term _ ih => exact ih hts
  | @infixed name t _ _ _ _ _ ht _ ih ih' =>
    have hop := mem_operators_of_token (hts t (by simp)) ht
    exact .binary hop rfl (ih fun t ht => hts t (by simp [ht])) (ih' fun t ht => hts t (by simp [ht]))

theorem over_of_parseFormula {source : String} {f : Formula}
    (h : lang.parseFormula kind source = .ok f) :
    f.Over (· ∈ lang.operators) (Symbol.Scanned lang kind) :=
  over_of_derives (Language.parseFormula_eq_ok_iff.mp h) fun _ ht => exists_of_mem_scanFrom ht

/-! ### The built-in languages -/

namespace Language

/-- Without postfix operators, all atoms that are tokens are legible. -/
theorem Spelled.legible (h : lang.Spelled style)
    (hpostfixed : ∀ op ∈ lang.operators, op.fixity ≠ .postfixed) (kind : SymbolKind) :
    Legible lang style (Symbol.Scanned lang kind) where
  toSpelled := h
  cuts_atom := fun _ hs => hs.2.1
  kindOf_atom := fun _ hs => hs.2.2
  postfixed := fun op hop hfixity => absurd hfixity (hpostfixed op hop)

theorem legible_scanned (hlang : lang = .horseshoe ∨ lang = .arrow) (style : Style)
    (kind : SymbolKind) : Legible lang style (Symbol.Scanned lang kind) := by
  rcases hlang with rfl | rfl
  · exact (spelled_horseshoe style).legible (by decide +kernel) kind
  · exact (spelled_arrow style).legible (by decide +kernel) kind

/-- Outside ASCII, no operator is written by a sign of negation. -/
theorem isNegationSign_unicode (hlang : lang = .horseshoe ∨ lang = .arrow) {op : Operator}
    (hop : op ∈ lang.operators) : isNegationSign (lang.spelling op .unicode).toList = false := by
  revert op
  rcases hlang with rfl | rfl <;> decide +kernel

/-- **Texts written again.** In the horseshoe and the arrow language, let a formula be read from any
    text. It can be written in each style, and is read from the new text again exactly if no sign of
    negation is written right before an atom that starts with another sign. In Unicode this never
    happens. -/
theorem parse_rewritten_iff (hlang : lang = .horseshoe ∨ lang = .arrow) {source : String}
    {f : Formula} (h : lang.parseFormula kind source = .ok f) (style : Style) :
    ∃ text, lang.format f style = .ok text ∧
      (lang.parseFormula kind text = .ok f ↔ ¬ f.Glued lang style) ∧
      (style = .unicode → lang.parseFormula kind text = .ok f) := by
  have hf := over_of_parseFormula h
  have hiff := parseFormula_written_iff (legible_scanned hlang style kind) (fun _ hs => hs.1) hf
  refine ⟨_, lang.format_eq f style, hiff, ?_⟩
  rintro rfl
  -- gluing takes an operator that is spelled by a sign of negation
  refine hiff.mpr (hf.not_glued ?_)
  rintro op s hop _ ⟨_, hsign, _⟩
  rw [isNegationSign_unicode hlang hop] at hsign
  cases hsign

/-- Negations of a run of signs and of a sign of negation, as one conditional. -/
def sampleSigns : Formula :=
  .app ⟨"Conditional", .infixed⟩
    [.app ⟨"Negation", .prefixed⟩ [.app ⟨"Negation", .prefixed⟩ [.proposition "@="]],
      .app ⟨"Negation", .prefixed⟩ [.proposition "-"]]

/-- In the sample a negation is glued to `@=`, so that only the Unicode text is read back. -/
theorem parse_rewritten_iff_sampleSigns :
    Language.horseshoe.parseFormula .proposition "~ ~ @= > (~-)" = .ok sampleSigns ∧
    Language.horseshoe.format sampleSigns .ascii = .ok "~~@= > ~-" ∧
    Language.horseshoe.parseFormula .proposition "~~@= > ~-" ≠ .ok sampleSigns ∧
    Language.horseshoe.format sampleSigns .unicode = .ok "¬¬@= ⊃ ¬-" ∧
    Language.horseshoe.parseFormula .proposition "¬¬@= ⊃ ¬-" = .ok sampleSigns := by
  have hsource : Language.horseshoe.parseFormula .proposition "~ ~ @= > (~-)" = .ok sampleSigns := by
    rfl
  have hascii : Language.horseshoe.format sampleSigns .ascii = .ok "~~@= > ~-" := by rfl
  have hunicode : Language.horseshoe.format sampleSigns .unicode = .ok "¬¬@= ⊃ ¬-" := by rfl
  have hglued : sampleSigns.Glued .horseshoe .ascii :=
    .inside (List.mem_cons_self) (.inside (List.mem_cons_self)
      (.here ⟨rfl, by decide +kernel, _, rfl, '@', by decide +kernel, by decide, by decide⟩))
  obtain ⟨text, hformat, hiff, _⟩ := parse_rewritten_iff (.inl rfl) hsource .ascii
  obtain ⟨text', hformat', _, hsame⟩ := parse_rewritten_iff (.inl rfl) hsource .unicode
  rw [hascii] at hformat
  rw [hunicode] at hformat'
  cases hformat
  cases hformat'
  exact ⟨hsource, hascii, fun hparse => hiff.mp hparse hglued, hunicode, hsame rfl⟩

/-- A negated sign is written as one run of signs in ASCII. In the horseshoe language the run may be
    read as an atom, and in the arrow language as a conditional without operands. -/
theorem negated_sign_rewritten :
    Language.horseshoe.parseFormula .proposition "~ @" =
      .ok (.app ⟨"Negation", .prefixed⟩ [.proposition "@"]) ∧
    Language.horseshoe.format (.app ⟨"Negation", .prefixed⟩ [.proposition "@"]) .ascii =
      .ok "~@" ∧
    Language.horseshoe.parseFormula .proposition "~@" = .ok (.proposition "~@") ∧
    Language.arrow.parseFormula .proposition "- >" =
      .ok (.app ⟨"Negation", .prefixed⟩ [.proposition ">"]) ∧
    Language.arrow.format (.app ⟨"Negation", .prefixed⟩ [.proposition ">"]) .ascii = .ok "->" ∧
    (Language.arrow.parseFormula .proposition "->").isOk = false :=
  ⟨rfl, rfl, rfl, rfl, rfl, rfl⟩

end Language

end NaturalDeduction
