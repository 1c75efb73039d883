import NaturalDeduction.Proofs.Except
import NaturalDeduction.Proofs.RoundTrip.Names
import NaturalDeduction.Proofs.Scanning.Lossless

/-! # Written operators are read back

    What is written for an operator is found by the name of its lexeme. What is
    read is cut from the text by classes of characters first, and only then
    looked up among the spellings of the lexicon.

    * **Lookup**: in a lexicon that is accepted, every spelling of a lexeme
      belongs to this lexeme (`owner?_of_checkLexemes`), so that both ways lead to
      the same lexeme.
    * **Cuts**: the classes of characters are the same for all lexicons. A
      spelling is one token exactly if it is of a form that they allow
      (`isSpellable`).
-/

namespace NaturalDeduction

variable {lang : Language} {l : Lexeme} {op : Operator} {text : String} {c : Char}
  {tail run : List Char}

/-! ### Spellings of an accepted lexicon -/

namespace Lexicon

theorem owner?_of_checkSpellings {before : List Lexeme} {ss : List String}
    (h : checkSpellings before l ss = .ok ()) : ∀ s ∈ ss, owner? before s = none := by
  induction ss with
  | nil => simp
  | cons s ss ih =>
    unfold checkSpellings at h
    split at h
    · cases h
    split at h
    · cases h
    · next hs =>
      intro s' hs'
      rcases List.mem_cons.mp hs' with rfl | hs'
      · exact hs
      · exact ih h s' hs'

theorem checkLexemes_cons {before ls : List Lexeme} (h : checkLexemes before (l :: ls) = .ok ()) :
    l.spellings ≠ [] ∧ checkSpellings before l l.spellings = .ok () ∧
      checkLexemes (l :: before) ls = .ok () := by
  unfold checkLexemes at h
  split at h
  · cases h
  · next hne =>
    split at h
    · cases h
    · next hspellings => exact ⟨hne, hspellings, h⟩

/-- Each lexeme has spellings, and they belong to no lexeme but to itself. -/
theorem owner?_of_checkLexemes {before ls : List Lexeme} (h : checkLexemes before ls = .ok ()) :
    ∀ l ∈ ls, l.spellings ≠ [] ∧
      ∀ s ∈ l.spellings, owner? before s = none ∧ owner? ls s = some l := by
  induction ls generalizing before with
  | nil => simp
  | cons first ls ih =>
    obtain ⟨hne, hfirst, hrest⟩ := checkLexemes_cons h
    intro l hl
    rcases List.mem_cons.mp hl with rfl | hl
    · refine ⟨hne, fun s hs => ⟨owner?_of_checkSpellings hfirst s hs, ?_⟩⟩
      simp [owner?, hs]
    · obtain ⟨hne', hl⟩ := ih hrest l hl
      refine ⟨hne', fun s hs => ?_⟩
      obtain ⟨hbefore, howner⟩ := hl s hs
      -- the first lexeme is among those before `l`
      have hother : s ∉ first.spellings ∧ owner? before s = none := by
        simpa [owner?] using hbefore
      refine ⟨hother.2, ?_⟩
      rw [owner?, List.find?_cons_of_neg (by simpa using hother.1)]
      exact howner

end Lexicon

theorem find?_or_head?_mem {fits : String → Bool} {spellings : List String} (h : spellings ≠ []) :
    ((spellings.find? fits).or spellings.head?).getD "" ∈ spellings := by
  cases hfound : spellings.find? fits with
  | some s => exact List.mem_of_find?_eq_some hfound
  | none =>
    obtain ⟨s, ss, rfl⟩ := List.exists_cons_of_ne_nil h
    exact List.mem_cons_self

/-- What is written for a lexeme is one of its spellings. -/
theorem Lexeme.spelling_mem (h : l.spellings ≠ []) (style : Style) :
    l.spelling style ∈ l.spellings :=
  find?_or_head?_mem h

namespace Language

theorem checkLexemes_of_ofLexicon {lexicon : Lexicon} (h : ofLexicon lexicon = .ok lang) :
    Lexicon.checkLexemes [] lexicon.lexemes = .ok () ∧ lang.lexemes = lexicon.lexemes := by
  obtain ⟨_, hcheck, h⟩ := Except.bind_eq_ok.mp h
  refine ⟨hcheck, ?_⟩
  split at h
  · cases h
  · obtain ⟨equivalence, _, h⟩ := Except.bind_eq_ok.mp h
    cases h
    rfl

/-- What is written for a lexeme of an accepted lexicon is looked up as this lexeme. -/
theorem lookup_spelling {lexicon : Lexicon} (h : ofLexicon lexicon = .ok lang)
    (hl : l ∈ lang.lexemes) (style : Style) : lang.lookup (l.spelling style) = some l := by
  obtain ⟨hcheck, hlexemes⟩ := checkLexemes_of_ofLexicon h
  rw [← hlexemes] at hcheck
  obtain ⟨hne, howner⟩ := Lexicon.owner?_of_checkLexemes hcheck l hl
  exact (howner _ (Lexeme.spelling_mem hne style)).2

end Language

/-! ### Texts that are one token -/

/-- Signs, but not two signs of negation first, which are two tokens. -/
def isSignRun (text : String) : Bool :=
  !text.isEmpty && text.toList.all isSign &&
    !(text.toList.head?.any isNegation && text.toList.tail.head?.any isNegation)

/-- Commas and brackets. -/
def isSeparator (c : Char) : Bool := ",()[]\x7b\x7d".toList.contains c

/-- A single character that is no blank, comma or bracket. -/
def isGlyph (text : String) : Bool :=
  text.toList.length == 1 && text.toList.all fun c => !isBlank c && !isSeparator c

/-- The text can be a spelling of which the scanner makes one token. -/
def isSpellable (text : String) : Bool := isName text || isSignRun text || isGlyph text

/-- Commas and brackets are never spellings. -/
theorem tokenKind_of_isSeparator (lang : Language) (h : isSeparator c = true) (lexeme : String) :
    lang.tokenKind c lexeme = TokenKind.ofChar c := by
  simp only [isSeparator, String.reduceToList, List.contains_eq_mem, decide_eq_true_eq,
    List.mem_cons, List.not_mem_nil, or_false] at h
  rcases h with rfl | rfl | rfl | rfl | rfl | rfl | rfl <;> rfl

theorem tokenKind_of_lookup (h : isSeparator c = false) {lexeme : String}
    (hlookup : lang.lookup lexeme = some l) : lang.tokenKind c lexeme = l.tokenKind := by
  have hne : c ≠ ',' ∧ Bracket.opened? c = none ∧ Bracket.closed? c = none := by
    simp only [isSeparator, String.reduceToList, List.contains_eq_mem, decide_eq_false_iff_not,
      List.mem_cons, List.not_mem_nil, or_false, not_or] at h
    simp [Bracket.opened?, Bracket.closed?, h]
  have hkind : TokenKind.ofChar c ≠ .comma ∧
      ∀ shape, TokenKind.ofChar c ≠ .opening shape ∧ TokenKind.ofChar c ≠ .closing shape := by
    simp only [TokenKind.ofChar, hne, beq_iff_eq, if_false]
    repeat' split
    all_goals simp
  obtain ⟨name, spellings, category, glosses⟩ := l
  unfold Language.tokenKind
  split
  · next heq => exact absurd heq hkind.1
  · next shape heq => exact absurd heq (hkind.2 shape).1
  · next shape heq => exact absurd heq (hkind.2 shape).2
  · rw [hlookup]
    cases category <;> rfl

theorem isSeparator_eq_false (h : isNameChar c = true ∨ isSign c = true) : isSeparator c = false := by
  have hall : (",()[]\x7b\x7d".toList.all fun d => !isNameChar d && !isSign d) = true := by decide
  cases hc : isSeparator c with
  | false => rfl
  | true =>
    have hmem : c ∈ ",()[]\x7b\x7d".toList := by simpa [isSeparator] using hc
    have hnot := List.all_eq_true.mp hall c hmem
    rcases h with h | h <;> simp [h] at hnot

theorem isName_of_letters (hc : isNameChar c = true) (hrun : ∀ d ∈ run, isNameChar d = true)
    (htext : text.toList = c :: run ∨ text.toList = c :: (run ++ [':'])) : isName text = true := by
  have hletters : ∀ d ∈ c :: run, isNameChar d = true := by
    intro d hd
    rcases List.mem_cons.mp hd with rfl | hd
    · exact hc
    · exact hrun d hd
  unfold isName
  rcases htext with htext | htext
  · have hlast : (c :: run).getLast? ≠ some ':' := by
      intro hlast
      exact absurd (hletters ':' (List.mem_of_getLast? hlast)) (by decide)
    simp only [htext, hlast, if_false]
    simpa using hletters
  · rw [← List.cons_append] at htext
    simp only [htext, List.getLast?_concat, if_true, List.dropLast_concat]
    simpa using hletters

/-- A name that is one token has capitals and digits, and at most one colon after them. -/
theorem isName_of_cuts (hc : isNameChar c = true) (htext : text.toList = c :: tail)
    (h : Cuts (c :: tail) []) : isName text = true := by
  have htail : tokenTail c tail = tail := by simpa using h.2
  simp only [tokenTail, hc, if_true] at htail
  have hrun : ∀ d ∈ tail.takeWhile isNameChar, isNameChar d = true :=
    fun d hd => List.mem_takeWhile_imp hd
  split at htail
  · exact isName_of_letters hc hrun (.inr (by rw [htail, htext]))
  · exact isName_of_letters hc hrun (.inl (by rw [htail, htext]))

theorem isSignRun_iff (htext : text.toList = c :: tail) :
    isSignRun text = true ↔ isSign c = true ∧ Cuts (c :: tail) [] := by
  have hne : text.isEmpty = false := by
    rw [← Bool.not_eq_true, String.isEmpty_iff]
    rintro rfl
    cases htext
  simp only [isSignRun, hne, htext, List.all_cons, List.head?_cons, List.tail_cons, Option.any_some,
    Bool.not_false, Bool.true_and, Bool.and_eq_true, Bool.not_eq_true', and_assoc]
  refine and_congr_right fun hsign => ?_
  have hcuts : Cuts (c :: tail) [] ↔ tokenTail c tail = tail := by
    simp [Cuts, isBlank_of_isSign hsign]
  rw [hcuts, List.all_eq_true, ← List.takeWhile_eq_self_iff]
  simp only [tokenTail, isNameChar_of_isSign hsign, Bool.false_eq_true, if_false, hsign, if_true]
  constructor
  · intro h
    rw [h.2, if_neg Bool.false_ne_true]
    exact h.1
  · intro h
    split at h
    · next hdouble => simp [← h] at hdouble
    · next hdouble => exact ⟨h, by simpa using hdouble⟩

/-- The forms of spellings are the texts that are one token, commas and brackets apart. -/
theorem isSpellable_iff (htext : text.toList = c :: tail) :
    isSpellable text = true ↔ Cuts (c :: tail) [] ∧ isSeparator c = false := by
  simp only [isSpellable, Bool.or_eq_true, isSignRun_iff htext]
  constructor
  · rintro ((hname | ⟨hsign, hcuts⟩) | hglyph)
    · obtain ⟨c', run, hc, hrun, htext' | htext'⟩ := exists_of_isName hname
      · obtain ⟨rfl, rfl⟩ := List.cons.inj (htext.symm.trans htext')
        exact ⟨cuts_name hc hrun (by simp), isSeparator_eq_false (.inl hc)⟩
      · obtain ⟨rfl, rfl⟩ := List.cons.inj (htext.symm.trans htext')
        exact ⟨cuts_name_colon hc hrun [], isSeparator_eq_false (.inl hc)⟩
    · exact ⟨hcuts, isSeparator_eq_false (.inr hsign)⟩
    · have hsingle : tail = [] ∧ isBlank c = false ∧ isSeparator c = false := by
        simp only [isGlyph, htext, List.length_cons, List.all_cons, Bool.and_eq_true, beq_iff_eq,
          Bool.not_eq_true', Nat.add_eq_right, List.length_eq_zero_iff] at hglyph
        exact ⟨hglyph.1, hglyph.2.1⟩
      obtain ⟨rfl, hblank, hseparator⟩ := hsingle
      exact ⟨⟨hblank, by simp [tokenTail]⟩, hseparator⟩
  · rintro ⟨hcuts, hseparator⟩
    by_cases hname : isNameChar c = true
    · exact .inl (.inl (isName_of_cuts hname htext hcuts))
    by_cases hsign : isSign c = true
    · exact .inl (.inr ⟨hsign, hcuts⟩)
    -- every other character stands alone
    · have htail : tail = [] := by
        rw [← hcuts.2]
        exact tokenTail_eq_nil (by simpa using hname) (by simpa using hsign) _
      right
      simp [isGlyph, htext, htail, hcuts.1, hseparator]

/-! ### Tokens of what is written -/

/-- A spelling of an operator is one token for this operator exactly if it is of such a form. -/
theorem scan_spelling_iff (hlookup : lang.lookup text = some l) (hop : l.operator? = some op) :
    lang.scan text = [⟨.operator op, text, .start⟩] ↔ isSpellable text = true := by
  by_cases htext : text = ""
  · subst htext
    exact ⟨fun hscan => absurd hscan (List.cons_ne_nil _ _).symm, fun h => absurd h (by decide)⟩
  obtain ⟨c, tail, hcons⟩ := List.exists_cons_of_ne_nil (String.toList_eq_nil_iff.not.mpr htext)
  have hofList : String.ofList (c :: tail) = text := by rw [← hcons, String.ofList_toList]
  rw [isSpellable_iff hcons]
  constructor
  · intro hscan
    have hmem : ⟨.operator op, text, .start⟩ ∈ lang.scan text := hscan ▸ List.mem_singleton_self _
    obtain ⟨w, p, hcuts, htoken⟩ := exists_of_mem_scanFrom hmem
    simp only [Language.token, Token.mk.injEq] at htoken
    obtain ⟨hkind, hw, -⟩ := htoken
    obtain rfl : w = c :: tail := by rw [← hcons, hw, String.toList_ofList]
    refine ⟨hcuts, ?_⟩
    cases hseparator : isSeparator c with
    | false => rfl
    | true =>
      have hchar := tokenKind_of_isSeparator lang hseparator (String.ofList (c :: tail))
      exact absurd (hchar.symm.trans hkind.symm) ((ofChar_ne c).1 op)
  · rintro ⟨hcuts, hseparator⟩
    have hkind : lang.kindOf (c :: tail) = .operator op := by
      rw [Language.kindOf, hofList, tokenKind_of_lookup hseparator hlookup, Lexeme.tokenKind, hop]
    have hscan : lang.scanFrom 0 .start (c :: tail ++ []) =
        lang.token (c :: tail) .start :: lang.scanFrom 0 _ [] := scanFrom_append hcuts .start
    rw [List.append_nil] at hscan
    rw [Language.scan, hcons, hscan, Language.token, hkind, hofList]
    rfl

theorem toList_ofText_eq_iff {t : Token} :
    (TokenStream.ofText lang text).toList = [t, ⟨.eof, "", .ofText text⟩] ↔ lang.scan text = [t] := by
  rw [← Position.after_eq_ofText]
  show lang.scan text ++ [_] = [t] ++ [_] ↔ _
  exact List.append_left_inj _

/-- A lexicon with a doubled sign of negation, a word in small letters, and two operators of one
    name. -/
def Lexicon.sampleWords : Lexicon where
  lexemes :=
    [⟨"Negation", ["--", "¬"], .operator .prefixed, []⟩,
      ⟨"Conjunction", ["and", "∧"], .operator .infixed, []⟩,
      ⟨"Minus", ["~"], .operator .prefixed, []⟩,
      ⟨"Minus", ["-"], .operator .infixed, []⟩,
      turnstile]
  equivalence := []

namespace Language

def sampleWords : Language where
  lexemes := Lexicon.sampleWords.lexemes
  entailment := Lexicon.turnstile
  equivalence := none

/-- **Written operators are read back.** In the language of an accepted lexicon, let an operator be
    that of a lexeme, and let the first lexeme of its name be of the same category. In both styles
    what is written for it is looked up as this operator. The scanner makes one token of it, which is
    the operator, exactly if it is a name of capitals and digits with at most one colon, or a run of
    signs that does not start with two signs of negation, or a single character that is no blank,
    comma or bracket. -/
theorem spelling_read_back {lexicon : Lexicon} (h : ofLexicon lexicon = .ok lang)
    (hl : l ∈ lexicon.lexemes) (hop : l.operator? = some op)
    (hname : ∀ first, lang.lexeme? op.name = some first → first.category = l.category)
    (style : Style) :
    lang.operator? (lang.spelling op style) = some op ∧
    ((TokenStream.ofText lang (lang.spelling op style)).toList =
        [⟨.operator op, lang.spelling op style, .start⟩,
          ⟨.eof, "", .ofText (lang.spelling op style)⟩] ↔
      isSpellable (lang.spelling op style) = true) := by
  have hlexemes : lang.lexemes = lexicon.lexemes := (checkLexemes_of_ofLexicon h).2
  have hmem : op ∈ lang.operators := List.mem_filterMap.mpr ⟨l, hlexemes ▸ hl, hop⟩
  obtain ⟨first, hfirstMem, hfirst, hfirstName⟩ := exists_lexeme? hmem
  -- the lexeme found by the name stands for the operator too
  have hcategory : l.category = .operator op.fixity := (Lexeme.operator?_eq_some.mp hop).2
  have hfirstOp : first.operator? = some op :=
    Lexeme.operator?_eq_some.mpr ⟨hfirstName, (hname first hfirst).trans hcategory⟩
  have hspelling : lang.spelling op style = first.spelling style := by rw [spelling, hfirst]
  have hlookup : lang.lookup (first.spelling style) = some first := lookup_spelling h hfirstMem style
  rw [hspelling]
  refine ⟨by rw [operator?, hlookup, Option.bind_some, hfirstOp], ?_⟩
  rw [toList_ofText_eq_iff]
  exact scan_spelling_iff hlookup hfirstOp

theorem spelling_read_back_sampleWords :
    ofLexicon .sampleWords = .ok sampleWords ∧
    (sampleWords.operator? "--" = some ⟨"Negation", .prefixed⟩ ∧
      (TokenStream.ofText sampleWords "--").toList ≠
        [⟨.operator ⟨"Negation", .prefixed⟩, "--", .start⟩, ⟨.eof, "", .ofText "--"⟩]) ∧
    sampleWords.operator? "¬" = some ⟨"Negation", .prefixed⟩ ∧
      (TokenStream.ofText sampleWords "¬").toList =
        [⟨.operator ⟨"Negation", .prefixed⟩, "¬", .start⟩, ⟨.eof, "", .ofText "¬"⟩] := by
  have hlang : ofLexicon .sampleWords = .ok sampleWords := by rfl
  have hop : Lexeme.operator? ⟨"Negation", ["--", "¬"], .operator .prefixed, []⟩ =
      some ⟨"Negation", .prefixed⟩ := rfl
  have hback := spelling_read_back hlang List.mem_cons_self hop
    (fun first hfirst => by rw [← Option.some.inj hfirst])
  have hascii := hback .ascii
  have hunicode := hback .unicode
  exact ⟨hlang, ⟨hascii.1, fun htokens => absurd (hascii.2.mp htokens) (by decide)⟩,
    hunicode.1, hunicode.2.mpr (by decide)⟩

/-- A lexicon is accepted with spellings that are no single token, and with operators that are
    written like another one of the same name. -/
theorem spelling_not_read_back :
    ofLexicon .sampleWords = .ok sampleWords ∧
    (sampleWords.spelling ⟨"Conjunction", .infixed⟩ .ascii = "and" ∧
      (sampleWords.scan "and").map Token.lexeme = ["a", "n", "d"]) ∧
    sampleWords.spelling ⟨"Minus", .infixed⟩ .ascii = "~" ∧
      sampleWords.operator? "~" = some ⟨"Minus", .prefixed⟩ := by
  refine ⟨by rfl, ⟨by rfl, by decide +kernel⟩, by rfl, by rfl⟩

end Language

end NaturalDeduction
