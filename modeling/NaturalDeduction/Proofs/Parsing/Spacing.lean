import NaturalDeduction.Proofs.Parsing.Respelling
import NaturalDeduction.Proofs.Scanning.Lossless

/-! # Reading is independent of spacing

    Where a token ends depends on the characters after it, so that pieces of a
    text which are written side by side may become one token, or be cut at other
    places. Blanks end every token. A token that is cut out of its text and
    written between blanks is therefore the same token again, also if it stood
    before a character that made it end: a sign of negation before another one,
    or a name closed by its colon.

    Main statement: the tokens of a text, written with blanks between them, are
    the tokens of the new text, and both texts are read alike.
-/

namespace NaturalDeduction

variable {lang : Language} {p : Position} {lead gap : String} {words gaps : List String}
  {rest : List Char}

/-- What a token is, wherever it stands. -/
def Token.face (t : Token) : TokenKind × String := (t.kind, t.lexeme)

/-! ### Words between blanks -/

theorem IsGap.stops (h : IsGap gap) (hrest : gap = "" → Stops rest) : Stops (gap.toList ++ rest) := by
  cases hgap : gap.toList with
  | nil => exact hrest (String.toList_eq_nil_iff.mp hgap)
  | cons c cs =>
    intro d hd
    obtain rfl : c = d := Option.some.inj hd
    exact not_of_isBlank (h c (hgap ▸ List.mem_cons_self))

/-- A text that starts with a gap stops every token, unless the gap is empty and a word follows. -/
theorem stops_spaced (h : IsGap lead) (hlead : words ≠ [] → lead ≠ "") :
    Stops (spaced lead words gaps).toList := by
  have halone : Stops lead.toList := by
    have hstops : Stops (lead.toList ++ []) := h.stops fun _ => by simp [Stops]
    rwa [List.append_nil] at hstops
  match words, gaps with
  | [], _ => exact halone
  | _ :: _, [] => exact halone
  | word :: words, gap :: gaps =>
    rw [spaced, String.toList_append, String.toList_append, List.append_assoc]
    exact h.stops fun hempty => absurd hempty (hlead (by simp))

/-- Words that are tokens by themselves are the tokens of a text in which blanks stand between
    them. -/
theorem scanFrom_spaced (lang : Language) (hwords : ∀ w ∈ words, Cuts w.toList [])
    (hlength : gaps.length = words.length) (hgaps : ∀ gap ∈ lead :: gaps, IsGap gap)
    (hne : ∀ gap ∈ gaps.dropLast, gap ≠ "") (p : Position) :
    (lang.scanFrom 0 p (spaced lead words gaps).toList).map Token.face =
      words.map fun w => (lang.kindOf w.toList, w) := by
  have hlead : IsGap lead := hgaps lead List.mem_cons_self
  induction words generalizing lead gaps p with
  | nil =>
    have hscan : lang.scanFrom 0 p (lead.toList ++ []) = [] := scanFrom_gap hlead [] p
    rw [List.append_nil] at hscan
    rw [spaced, hscan]
    · rfl
    · simp
  | cons w words ih =>
    obtain _ | ⟨gap, gaps⟩ := gaps
    · cases hlength
    have hlength : gaps.length = words.length := Nat.succ.inj hlength
    have hgap : IsGap gap := hgaps gap (by simp)
    -- only the last gap may be empty
    have hgapne : words ≠ [] → gap ≠ "" := by
      intro hwords
      refine hne gap ?_
      have hgaps : gaps ≠ [] := by
        rintro rfl
        exact hwords (List.length_eq_zero_iff.mp hlength.symm)
      simp [List.dropLast_cons_of_ne_nil hgaps]
    have hne' : ∀ gap' ∈ gaps.dropLast, gap' ≠ "" := by
      intro gap' hmem
      refine hne gap' ?_
      have hgaps : gaps ≠ [] := by
        rintro rfl
        cases hmem
      simp [List.dropLast_cons_of_ne_nil hgaps, hmem]
    have hcuts : Cuts w.toList (spaced gap words gaps).toList :=
      (hwords w List.mem_cons_self).of_stops (stops_spaced hgap hgapne)
    have hrest := ih (fun w hw => hwords w (List.mem_cons_of_mem _ hw)) hlength
      (fun gap' hmem => hgaps gap' (List.mem_cons_of_mem _ hmem)) hne'
      ((p.after lead.toList).after w.toList) hgap
    rw [spaced, String.toList_append, String.toList_append, List.append_assoc,
      scanFrom_gap hlead, scanFrom_append hcuts, List.map_cons, hrest, List.map_cons]
    simp [Token.face, Language.token]

/-! ### Texts with other gaps -/

namespace Language

variable {source source' : String}

/-- What a token of a text is can be said from its characters alone. -/
theorem face_eq_of_mem_scan {t : Token} (ht : t ∈ lang.scan source) :
    Cuts t.lexeme.toList [] ∧ t.face = (lang.kindOf t.lexeme.toList, t.lexeme) := by
  obtain ⟨w, p, hcuts, rfl⟩ := exists_of_mem_scanFrom ht
  have hlexeme : (lang.token w p).lexeme.toList = w := String.toList_ofList
  rw [hlexeme]
  exact ⟨hcuts, rfl⟩

theorem forall₂_alike_of_face
    (h : (lang.scan source).map Token.face = (lang.scan source').map Token.face) :
    List.Forall₂ Token.Alike (lang.scan source) (lang.scan source') := by
  rw [← List.forall₂_eq_eq_eq, List.forall₂_map_left_iff, List.forall₂_map_right_iff] at h
  refine h.imp ?_
  intro t u hface
  obtain ⟨hkind, hlexeme⟩ := Prod.mk.inj hface
  exact ⟨hkind, fun _ => hlexeme⟩

/-- **Reading does not depend on spacing.** Write the tokens of a text with any blanks between them,
    at least one in each place, and with any blanks or none before and after them. The new text has
    the same tokens, and is read like the old one, as a formula and as a sequent: both are accepted
    with the same result, or both are rejected, with the same message at the same token. -/
theorem parse_respaced (lang : Language) (source : String) {lead : String} {gaps : List String}
    (hlength : gaps.length = (lang.scan source).length)
    (hgaps : ∀ gap ∈ lead :: gaps, IsGap gap) (hne : ∀ gap ∈ gaps.dropLast, gap ≠ "") :
    (lang.scan (spaced lead ((lang.scan source).map Token.lexeme) gaps)).map Token.face =
        (lang.scan source).map Token.face ∧
      ∀ kind,
        ReadAlike lang source (spaced lead ((lang.scan source).map Token.lexeme) gaps)
          (lang.parseFormula kind source)
          (lang.parseFormula kind (spaced lead ((lang.scan source).map Token.lexeme) gaps)) ∧
        ReadAlike lang source (spaced lead ((lang.scan source).map Token.lexeme) gaps)
          (lang.parseSequent kind source)
          (lang.parseSequent kind (spaced lead ((lang.scan source).map Token.lexeme) gaps)) := by
  have hwords : ∀ w ∈ (lang.scan source).map Token.lexeme, Cuts w.toList [] := by
    intro w hw
    obtain ⟨t, ht, rfl⟩ := List.mem_map.mp hw
    exact (face_eq_of_mem_scan ht).1
  have hface : (lang.scan (spaced lead ((lang.scan source).map Token.lexeme) gaps)).map Token.face =
      (lang.scan source).map Token.face := by
    rw [scan, scanFrom_spaced lang hwords (by rw [hlength, List.length_map]) hgaps hne,
      List.map_map]
    refine List.map_congr_left ?_
    intro t ht
    exact (face_eq_of_mem_scan ht).2.symm
  refine ⟨hface, ?_⟩
  intro kind
  have halike := forall₂_alike_of_face hface.symm
  exact ⟨read_alike (Reader.expression_uniform kind) halike,
    read_alike (Reader.sequent_uniform kind) halike⟩

/-- Signs of negation side by side, and a name closed by a colon, written apart. -/
theorem parse_respaced_negations :
    spaced " " ((scan .horseshoe "~~P&(Q v R1:)").map Token.lexeme)
        ["\n", "\t", " ", "  ", " ", " ", " ", " \r\n", ""] = " ~\n~\tP &  ( Q v R1: \r\n)" ∧
      parseFormula .horseshoe .proposition "~~P&(Q v R1:)" =
        parseFormula .horseshoe .proposition " ~\n~\tP &  ( Q v R1: \r\n)" ∧
      (parseFormula .horseshoe .proposition "~~P&(Q v R1:)").isOk = true := by
  have htext : spaced " " ((scan .horseshoe "~~P&(Q v R1:)").map Token.lexeme)
      ["\n", "\t", " ", "  ", " ", " ", " ", " \r\n", ""] = " ~\n~\tP &  ( Q v R1: \r\n)" := by
    decide +kernel
  obtain ⟨f, hf⟩ : ∃ f, parseFormula .horseshoe .proposition "~~P&(Q v R1:)" = .ok f := ⟨_, rfl⟩
  have hgaps : ∀ gap ∈ [" ", "\n", "\t", " ", "  ", " ", " ", " ", " \r\n", ""], IsGap gap := by
    decide
  have halike := (parse_respaced .horseshoe "~~P&(Q v R1:)" (by rfl) hgaps
    (by decide)).2 .proposition
  rw [htext] at halike
  rw [(halike.1.ok_iff f).mp hf, hf]
  exact ⟨htext, rfl, rfl⟩

end Language

end NaturalDeduction
