import NaturalDeduction.Proofs.RoundTrip.Sequent
import NaturalDeduction.Proofs.RoundTrip.Spellings

/-! # Formulas over names are read back

    A name is made of capitals and digits, with at most one colon after them. It
    never starts with a sign, so that no sign of negation is glued to it. In the
    built-in languages, and with one more operator written `!` after its
    operand, everything that is written over names is read as the same again.
-/

namespace NaturalDeduction

/-! ### Names -/

/-- Capitals and digits, with at most one colon after them. -/
def isName (name : String) : Bool :=
  let letters := if name.toList.getLast? = some ':' then name.toList.dropLast else name.toList
  !letters.isEmpty && letters.all isNameChar

/-- The symbol is of a kind, and called by a name that is no spelling of the language. -/
def Symbol.NameIn (lang : Language) (kind : SymbolKind) (s : Symbol) : Prop :=
  s.kind = kind ∧ isName s.name = true ∧ lang.lookup s.name = none

theorem exists_of_isName {name : String} (h : isName name = true) :
    ∃ c run, isNameChar c = true ∧ (∀ d ∈ run, isNameChar d = true) ∧
      (name.toList = c :: run ∨ name.toList = c :: (run ++ [':'])) := by
  simp only [isName, Bool.and_eq_true, Bool.not_eq_true', List.isEmpty_eq_false_iff_exists_mem,
    List.all_eq_true] at h
  split at h
  · next hlast =>
    obtain ⟨⟨d, hd⟩, hletters⟩ := h
    obtain ⟨letters, hname⟩ := List.getLast?_eq_some_iff.mp hlast
    rw [hname, List.dropLast_concat] at hd hletters
    obtain ⟨c, run, rfl⟩ := List.exists_cons_of_ne_nil (List.ne_nil_of_mem hd)
    exact ⟨c, run, hletters c (by simp), fun d hd => hletters d (by simp [hd]), .inr hname⟩
  · obtain ⟨⟨d, hd⟩, hletters⟩ := h
    obtain ⟨c, run, hname⟩ := List.exists_cons_of_ne_nil (List.ne_nil_of_mem hd)
    rw [hname] at hletters
    exact ⟨c, run, hletters c (by simp), fun d hd => hletters d (by simp [hd]), .inl hname⟩

theorem isName_ofChar {c : Char} (h : isNameChar c = true) : TokenKind.ofChar c = .symbol := by
  have hall : (",;.([\x7b)]\x7d".toList.all fun d => !isNameChar d) = true := by decide
  have hne : ∀ d ∈ ",;.([\x7b)]\x7d".toList, c ≠ d := by
    rintro d hd rfl
    simpa [h] using List.all_eq_true.mp hall c hd
  simp only [String.reduceToList, List.mem_cons, List.not_mem_nil, or_false, forall_eq_or_imp,
    forall_eq] at hne
  simp [TokenKind.ofChar, Bracket.opened?, Bracket.closed?, hne, h]

section Names

variable {lang : Language} {kind : SymbolKind} {s : Symbol}

/-- A name ends before all that is neither a part of a name nor a colon. -/
theorem Symbol.NameIn.cuts (h : s.NameIn lang kind) {rest : List Char}
    (hrest : ∀ d ∈ rest.head?, isNameChar d = false ∧ d ≠ ':') : Cuts s.name.toList rest := by
  obtain ⟨c, run, hc, hrun, hname | hname⟩ := exists_of_isName h.2.1
  · rw [hname]
    exact cuts_name hc hrun hrest
  · rw [hname]
    exact cuts_name_colon hc hrun rest

theorem Symbol.NameIn.isNameChar_head (h : s.NameIn lang kind) :
    ∃ c tail, s.name.toList = c :: tail ∧ isNameChar c = true := by
  obtain ⟨c, run, hc, _, hname | hname⟩ := exists_of_isName h.2.1
  · exact ⟨c, _, hname, hc⟩
  · exact ⟨c, _, hname, hc⟩

theorem Symbol.NameIn.isSign_head (h : s.NameIn lang kind) :
    ∀ c ∈ s.name.toList.head?, isSign c = false := by
  obtain ⟨c, tail, hname, hc⟩ := h.isNameChar_head
  rw [hname]
  rintro d ⟨⟩
  cases hsign : isSign c with
  | false => rfl
  | true => simp [isNameChar_of_isSign hsign] at hc

theorem Symbol.NameIn.kindOf (h : s.NameIn lang kind) : lang.kindOf s.name.toList = .symbol := by
  obtain ⟨c, tail, hname, hc⟩ := h.isNameChar_head
  have hlookup := h.2.2
  rw [← String.ofList_toList (s := s.name), hname] at hlookup
  rw [hname, kindOf_of_lookup_eq_none hlookup, isName_ofChar hc]

/-- No sign of negation is glued to a name. -/
theorem not_glued_of_names {style : Style} {operators : Operator → Prop} {f : Formula}
    (h : f.Over operators (Symbol.NameIn lang kind)) : ¬ f.Glued lang style := by
  refine h.not_glued ?_
  rintro op s _ hs ⟨_, _, s', hs', c, hc, hsign, _⟩
  cases hs'
  simp [hs.isSign_head c hc] at hsign

end Names

/-! ### Languages -/

namespace Language

/-- The horseshoe and the arrow language, and the horseshoe language with a postfix operator `!`
    that has a name of its own. -/
inductive Familiar : Language → Prop where
  | horseshoe : Familiar .horseshoe
  | arrow : Familiar .arrow
  | extended {name : String} {glosses : List String} {lang : Language} :
      name ∉ Lexicon.horseshoe.lexemes.map Lexeme.name →
      ofLexicon { Lexicon.horseshoe with
        lexemes := Lexicon.horseshoe.lexemes ++ [exclamation name glosses] } = .ok lang →
      Familiar lang

/-- The language of the longer lexicon is the language with one more lexeme. -/
theorem ofLexicon_exclamation (name : String) (glosses : List String) :
    ofLexicon { Lexicon.horseshoe with
      lexemes := Lexicon.horseshoe.lexemes ++ [exclamation name glosses] } =
        .ok (Language.horseshoe.extend (exclamation name glosses)) := rfl

theorem lexeme?_horseshoe_eq_none {name : String}
    (h : name ∉ Lexicon.horseshoe.lexemes.map Lexeme.name) :
    Language.horseshoe.lexeme? name = none := by
  refine List.find?_eq_none.mpr fun l hl hname => h ?_
  exact List.mem_map.mpr ⟨l, hl, by simpa using hname⟩

namespace Familiar

variable {lang : Language} {style : Style} {kind : SymbolKind}

theorem spelled (h : lang.Familiar) (style : Style) : lang.Spelled style := by
  cases h with
  | horseshoe => exact spelled_horseshoe style
  | arrow => exact spelled_arrow style
  | @extended name glosses lang hname hlang =>
    rw [ofLexicon_exclamation] at hlang
    cases hlang
    exact (spelled_horseshoe style).extend (lexeme?_horseshoe_eq_none hname) (by decide +kernel)

/-- There is no postfix operator but `!`. -/
theorem spelling_postfixed (h : lang.Familiar) {op : Operator} (hop : op ∈ lang.operators)
    (hfixity : op.fixity = .postfixed) (style : Style) : lang.spelling op style = "!" := by
  have hhorseshoe : ∀ op ∈ Language.horseshoe.operators, op.fixity ≠ .postfixed := by decide +kernel
  have harrow : ∀ op ∈ Language.arrow.operators, op.fixity ≠ .postfixed := by decide +kernel
  cases h with
  | horseshoe => exact absurd hfixity (hhorseshoe op hop)
  | arrow => exact absurd hfixity (harrow op hop)
  | @extended name glosses lang hname hlang =>
    rw [ofLexicon_exclamation] at hlang
    cases hlang
    rcases mem_operators_extend.mp hop with hop | rfl
    · exact absurd hfixity (hhorseshoe op hop)
    · exact spelling_exclamation (lexeme?_horseshoe_eq_none hname) _ style

theorem legible (h : lang.Familiar) (style : Style) (kind : SymbolKind) :
    Legible lang style (Symbol.NameIn lang kind) where
  toSpelled := h.spelled style
  cuts_atom := fun s hs => hs.cuts (by simp)
  kindOf_atom := fun s hs => hs.kindOf
  postfixed := by
    intro op hop hfixity s hs
    -- the mark `!` is a sign, but neither a colon nor a part of a name
    refine ⟨fun rest => hs.cuts ?_, hs.isSign_head⟩
    rw [h.spelling_postfixed hop hfixity]
    rintro d ⟨⟩
    decide

/-- **Parsing undoes rendering.** In the built-in languages and with one more operator `!`, every
    formula over names is written in each style and read as the same formula again. So is every
    sequent over names with a conclusion at every level. -/
theorem parse_format (hlang : lang.Familiar) (kind : SymbolKind) (style : Style) :
    (∀ f : Formula, f.Over (· ∈ lang.operators) (Symbol.NameIn lang kind) →
      ∃ text, lang.format f style = .ok text ∧ lang.parseFormula kind text = .ok f) ∧
    ∀ s : Sequent, s.Over (· ∈ lang.operators) (Symbol.NameIn lang kind) →
      ∃ text, lang.formatSequent s style = .ok text ∧ lang.parseSequent kind text = .ok s := by
  have hlegible := hlang.legible style kind
  have hkind : ∀ s, Symbol.NameIn lang kind s → s.kind = kind := fun s hs => hs.1
  constructor
  · intro f hf
    refine ⟨_, lang.format_eq f style, ?_⟩
    exact (parseFormula_written_iff hlegible hkind hf).mpr (not_glued_of_names hf)
  · intro s hs
    refine ⟨_, lang.formatSequent_eq s style, ?_⟩
    exact parseSequent_written hlegible hkind (fun f hf => not_glued_of_names hf) hs

/-- The horseshoe language with the operator `!`, called a bang. -/
def sampleBang : Language := Language.horseshoe.extend (exclamation "Bang" [])

/-- `(~~P)! v N:A1:` -/
def sampleFormula : Formula :=
  .app ⟨"Disjunction", .infixed⟩
    [.app ⟨"Bang", .postfixed⟩
        [.app ⟨"Negation", .prefixed⟩ [.app ⟨"Negation", .prefixed⟩ [.proposition "P"]]],
      .app ⟨"Necessitation", .prefixed⟩ [.proposition "A1:"]]

/-- A sequent with `sampleFormula` and a nested sequent. -/
def sampleSequent : Sequent where
  premises := [.sequent [.formula sampleFormula, .sequent [] [.proposition "Q"]]
    [.proposition "Q", .proposition "P"]]
  conclusions := [sampleFormula]

theorem familiar_sampleBang : sampleBang.Familiar :=
  .extended (by decide) (ofLexicon_exclamation "Bang" [])

theorem over_proposition (name : String) (hname : isName name = true)
    (hlookup : sampleBang.lookup name = none) :
    (Formula.proposition name).Over (· ∈ sampleBang.operators)
      (Symbol.NameIn sampleBang .proposition) :=
  .atom ⟨rfl, hname, hlookup⟩

theorem over_sampleFormula :
    sampleFormula.Over (· ∈ sampleBang.operators) (Symbol.NameIn sampleBang .proposition) := by
  have hp := over_proposition "P" (by decide +kernel) (by decide +kernel)
  have ha := over_proposition "A1:" (by decide +kernel) (by decide +kernel)
  refine .binary (by decide +kernel) rfl ?_ (.unary (by decide +kernel) rfl ha)
  refine .unary (by decide +kernel) rfl ?_
  exact .unary (by decide +kernel) rfl (.unary (by decide +kernel) rfl hp)

theorem over_sampleSequent :
    sampleSequent.Over (· ∈ sampleBang.operators) (Symbol.NameIn sampleBang .proposition) := by
  have hp := over_proposition "P" (by decide +kernel) (by decide +kernel)
  have hq := over_proposition "Q" (by decide +kernel) (by decide +kernel)
  have hf := over_sampleFormula
  have hinner : (Form.sequent [] [.proposition "Q"]).Over (· ∈ sampleBang.operators)
      (Symbol.NameIn sampleBang .proposition) :=
    .sequent (by simp) (by simp) (by simpa using hq)
  have hpremise : (Form.sequent [.formula sampleFormula, .sequent [] [.proposition "Q"]]
      [.proposition "Q", .proposition "P"]).Over (· ∈ sampleBang.operators)
        (Symbol.NameIn sampleBang .proposition) :=
    .sequent (by simpa using ⟨.formula hf, hinner⟩) (by simp) (by simpa using ⟨hq, hp⟩)
  exact .sequent (by simpa [sampleSequent] using hpremise) (by simp [sampleSequent])
    (by simpa [sampleSequent] using hf)

theorem parse_format_sampleBang :
    sampleBang.Familiar ∧
    sampleFormula.Over (· ∈ sampleBang.operators) (Symbol.NameIn sampleBang .proposition) ∧
    sampleSequent.Over (· ∈ sampleBang.operators) (Symbol.NameIn sampleBang .proposition) ∧
    sampleBang.format sampleFormula .ascii = .ok "(~~P)! v N:A1:" ∧
    sampleBang.parseFormula .proposition "(~~P)! v N:A1:" = .ok sampleFormula ∧
    sampleBang.formatSequent sampleSequent .unicode =
      .ok "((¬¬P)! ∨ □A1:, (⊦ Q) ⊦ Q, P) ⊦ (¬¬P)! ∨ □A1:" ∧
    sampleBang.parseSequent .proposition "((¬¬P)! ∨ □A1:, (⊦ Q) ⊦ Q, P) ⊦ (¬¬P)! ∨ □A1:" =
      .ok sampleSequent := by
  have hformula : sampleBang.format sampleFormula .ascii = .ok "(~~P)! v N:A1:" := by rfl
  have hsequent : sampleBang.formatSequent sampleSequent .unicode =
      .ok "((¬¬P)! ∨ □A1:, (⊦ Q) ⊦ Q, P) ⊦ (¬¬P)! ∨ □A1:" := by rfl
  obtain ⟨text, hformat, hparse⟩ :=
    (parse_format familiar_sampleBang .proposition .ascii).1 _ over_sampleFormula
  obtain ⟨text', hformat', hparse'⟩ :=
    (parse_format familiar_sampleBang .proposition .unicode).2 _ over_sampleSequent
  rw [hformula] at hformat
  rw [hsequent] at hformat'
  cases hformat
  cases hformat'
  exact ⟨familiar_sampleBang, over_sampleFormula, over_sampleSequent, hformula, hparse, hsequent,
    hparse'⟩

end Familiar

end Language

end NaturalDeduction
