import NaturalDeduction.Proofs.Scanning.Cursor

/-! # Nothing is lost between tokens

    A text is its tokens with gaps of blanks before, between and after them. The
    place of each token is said by the text before it: its bytes, its newlines,
    and its characters since the last newline.

    Main statement: a scanner cuts every text into such tokens, one at a time,
    and then finds the end of the text for ever. No cut fails, whatever bytes
    the characters of the text have.
-/

namespace NaturalDeduction

/-! ### Words and gaps -/

/-- A text that starts with a gap and in which each word is followed by a gap of its own. -/
def spaced (lead : String) : (words gaps : List String) → String
  | word :: words, gap :: gaps => lead ++ word ++ spaced gap words gaps
  | _, _ => lead

/-- The text is made of blanks. -/
def IsGap (text : String) : Prop := ∀ c ∈ text.toList, isBlank c = true

instance (text : String) : Decidable (IsGap text) := List.decidableBAll _ text.toList

/-- The place after a text. -/
def Position.ofText (text : String) : Position where
  byte := text.utf8ByteSize
  line := text.toList.count '\n'
  column := (text.toList.reverse.takeWhile (· ≠ '\n')).length

variable {lang : Language} {p : Position} {source lead : String} {gaps : List String}
  {t eof : Token} {ts : List Token}

theorem Position.after_eq_ofText (text : String) :
    Position.start.after text.toList = Position.ofText text := by
  obtain ⟨above, left, htext, habove, hleft⟩ := exists_wholeLines text.toList
  have hcolumn : ((above ++ left).reverse.takeWhile (· ≠ '\n')).length = left.length := by
    rw [List.reverse_append,
      List.takeWhile_append_of_pos (by simpa using fun c hc => ne_of_mem_of_not_mem hc hleft)]
    rcases habove.eq_nil_or with rfl | ⟨ds, rfl⟩ <;> simp
  rw [ofText, ← byteLength_toList, htext, Position.start_after habove hleft, hcolumn]

/-! ### Tokens as words -/

/-- What tokens are cut from are their texts with gaps, and each token stands after the words and
    gaps before it. -/
theorem Tiles.exists_spaced {cs : List Char} (h : Tiles lang p cs ts) :
    ∃ lead gaps, gaps.length = ts.length ∧ (∀ gap ∈ lead :: gaps, IsGap gap) ∧
      cs = (spaced lead (ts.map Token.lexeme) gaps).toList ∧
      ∀ i t, ts[i]? = some t → t.position =
        p.after (spaced lead ((ts.map Token.lexeme).take i) (gaps.take i)).toList := by
  induction h with
  | @blanks p gap hgap =>
    refine ⟨String.ofList gap, [], rfl, ?_, by simp [spaced], by simp⟩
    simpa [IsGap] using hgap
  | @token p gap w rest ts hgap hcuts htiles ih =>
    obtain ⟨lead, gaps, hlength, hgaps, rfl, hplace⟩ := ih
    refine ⟨String.ofList gap, lead :: gaps, ?_, ?_, ?_, ?_⟩
    · rw [List.length_cons, List.length_cons, hlength]
    · intro gap' hmem
      rcases List.mem_cons.mp hmem with rfl | hmem
      · simpa [IsGap] using hgap
      · exact hgaps gap' hmem
    · simp [spaced, Language.token]
    · intro i t ht
      cases i with
      | zero =>
        obtain rfl := Option.some.inj ht
        simp [spaced, Language.token]
      | succ i =>
        rw [hplace i t ht, ← Position.after_append]
        simp [spaced, Language.token]

/-- No token reaches into one that comes later, or beyond the end of the text. -/
theorem Tiles.apart {cs : List Char} (h : Tiles lang p cs ts) (heof : eof.position = p.after cs) :
    (ts ++ [eof]).Pairwise fun t t' =>
      t.position.byte + t.lexeme.utf8ByteSize ≤ t'.position.byte := by
  induction h with
  | blanks _ => simp
  | @token p gap w rest ts _ _ htiles ih =>
    have heof' : eof.position = (p.after (gap ++ w)).after rest := by
      rw [heof, Position.after_append p (gap ++ w)]
    refine List.Pairwise.cons ?_ (ih heof')
    -- what comes later is after the last byte of the token
    have hlater : ∀ cs, (p.after gap).byte + byteLength w ≤ ((p.after (gap ++ w)).after cs).byte := by
      intro cs
      rw [Position.after_append, ← Position.after_byte, Position.after_byte _ cs]
      exact Nat.le_add_right _ _
    intro t' ht'
    rcases List.mem_append.mp ht' with hmem | hmem
    · obtain ⟨front, w', back, -, -, rfl⟩ := htiles.exists_of_mem hmem
      exact hlater front
    · rw [List.mem_singleton.mp hmem, heof']
      exact hlater rest

/-- The tokens are all that there is in a text but blanks, and stand where they say. -/
structure CutFrom (source : String) (ts : List Token) (eof : Token) : Prop where
  /-- A token has a text, which is that of the source at its byte. -/
  lexeme : ∀ t ∈ ts, t.kind ≠ .eof ∧ t.lexeme ≠ "" ∧
    bytesBetween? source t.position.byte (t.position.byte + t.lexeme.utf8ByteSize) = some t.lexeme
  ending : eof.kind = .eof ∧ eof.lexeme = ""
  /-- No token reaches into one that comes later, or beyond the end. -/
  apart : (ts ++ [eof]).Pairwise fun t t' =>
    t.position.byte + t.lexeme.utf8ByteSize ≤ t'.position.byte
  /-- The source is made of the tokens and of gaps, and each token, and the end, has the place after
      the tokens and gaps before it. -/
  covers : ∃ lead gaps, gaps.length = ts.length ∧ (∀ gap ∈ lead :: gaps, IsGap gap) ∧
    source = spaced lead (ts.map Token.lexeme) gaps ∧
    ∀ (i : Nat) (t : Token), (ts ++ [eof])[i]? = some t →
      t.position = .ofText (spaced lead ((ts.map Token.lexeme).take i) (gaps.take i))

theorem tiles_scan (lang : Language) (source : String) :
    Tiles lang .start source.toList (lang.scan source) :=
  tiles_scanFrom lang .start source.toList

/-- The tokens of a text are cut from it without loss. -/
theorem cutFrom_scan (lang : Language) (source : String) :
    CutFrom source (lang.scan source) (TokenStream.ofText lang source).eof where
  lexeme := by
    intro t ht
    obtain ⟨front, w, back, hsource, hcuts, rfl⟩ := (tiles_scan lang source).exists_of_mem ht
    refine ⟨kindOf_ne_eof hcuts.ne_nil, ?_, ?_⟩
    · intro hempty
      exact hcuts.ne_nil (by simpa [Language.token] using hempty)
    · have hbyte : (lang.token w (Position.start.after front)).position.byte = byteLength front := by
        rw [Language.token, Position.after_byte]
        exact Nat.zero_add _
      rw [hbyte]
      exact bytesBetween?_of_toList front w back hsource
  ending := ⟨rfl, rfl⟩
  apart := (tiles_scan lang source).apart rfl
  covers := by
    obtain ⟨lead, gaps, hlength, hgaps, hsource, hplace⟩ := (tiles_scan lang source).exists_spaced
    have hsource : source = spaced lead ((lang.scan source).map Token.lexeme) gaps :=
      String.toList_inj.mp hsource
    refine ⟨lead, gaps, hlength, hgaps, hsource, ?_⟩
    intro i t ht
    rw [List.getElem?_append] at ht
    split at ht
    · rw [hplace i t ht, Position.after_eq_ofText]
    · next hi =>
      -- after all tokens and gaps comes the end
      obtain ⟨rfl, rfl⟩ : i = (lang.scan source).length ∧ t = (TokenStream.ofText lang source).eof := by
        obtain ⟨hlt, heq⟩ := List.getElem?_eq_some_iff.mp ht
        rw [List.length_singleton] at hlt
        refine ⟨by omega, ?_⟩
        rw [← heq, List.getElem_singleton]
      have hall : (gaps.take (lang.scan source).length) = gaps := by
        rw [← hlength, List.take_length]
      rw [hall, List.take_of_length_le (by simp), ← hsource]
      exact Position.after_eq_ofText source

/-- **Nothing is lost.** Every text can be scanned, whatever characters it has. The scanner hands out
    the tokens of the text one after the other, as often as it is asked, and then the one at the end
    for ever; at any time it can report an error with the line of the next token. The tokens stand
    in the text where their places say, in order and without overlap, and there is nothing else in
    the text but blanks. -/
theorem Scanner.consumes_text (lang : Language) (source : String) :
    CutFrom source (lang.scan source) (TokenStream.ofText lang source).eof ∧
    ∃ s, Scanner.ofText? lang source = some s ∧
      ∀ count, ∃ s', s.consumeAll? count = some ((lang.scan source ++
          List.replicate count (TokenStream.ofText lang source).eof).take count, s') ∧
        ∀ message, s'.error? message = some ({ TokenStream.ofText lang source with
          pending := (lang.scan source).drop count }.error message) := by
  refine ⟨cutFrom_scan lang source, ?_⟩
  obtain ⟨s, hs, hshows⟩ := Scanner.ofText?_shows lang source
  refine ⟨s, hs, ?_⟩
  intro count
  obtain ⟨s', hconsume, hshows'⟩ := hshows.consumeAll? count
  exact ⟨s', hconsume, hshows'.error?⟩

end NaturalDeduction
