import NaturalDeduction.Proofs.AnnotatedText.Slice
import NaturalDeduction.Proofs.Scanning.Positions
import NaturalDeduction.Token.Cursor

/-! # Cursors stand between characters

    A cursor counts bytes, lines and the bytes before the line apart from each
    other, and moves on by different amounts for different characters.

    * **Cursors**: if a cursor stands between two characters and knows its line
      (`Cursor.Stands`), then every cut that it makes is between two characters,
      and it stands between two characters again (`Stands.next?`).
    * **Scanners**: a scanner shows the same tokens as the stream of the text,
      one after the other, and the same errors (`Scanner.Shows`).
-/

namespace NaturalDeduction

/-! ### Numbers of bytes -/

variable {front back w cs above left right : List Char} {c : Char} {text : String}

/-- The number of bytes of characters. -/
def byteLength (cs : List Char) : Nat := (String.ofList cs).utf8ByteSize

@[simp] theorem byteLength_nil : byteLength [] = 0 := by
  simp [byteLength]

@[simp] theorem byteLength_cons (c : Char) (cs : List Char) :
    byteLength (c :: cs) = c.utf8Size + byteLength cs := by
  simp [byteLength, String.ofList_cons]

@[simp] theorem byteLength_append (cs ds : List Char) :
    byteLength (cs ++ ds) = byteLength cs + byteLength ds := by
  simp [byteLength]

theorem byteLength_toList (text : String) : byteLength text.toList = text.utf8ByteSize := by
  rw [byteLength, String.ofList_toList]

theorem Position.after_byte (p : Position) (cs : List Char) :
    (p.after cs).byte = p.byte + byteLength cs := by
  induction cs generalizing p with
  | nil => rfl
  | cons c cs ih =>
    have hadvance : (p.advance c).byte = p.byte + c.utf8Size := by
      unfold advance
      split <;> rfl
    show ((p.advance c).after cs).byte = _
    rw [ih, hadvance, byteLength_cons, Nat.add_assoc]

/-- The place after whole lines and a part of the next one. -/
theorem Position.start_after (habove : WholeLines above) (hleft : '\n' ∉ left) :
    Position.start.after (above ++ left) =
      ⟨byteLength (above ++ left), (above ++ left).count '\n', left.length⟩ := by
  have hbyte := Position.start.after_byte (above ++ left)
  have hline := Position.start.after_line (above ++ left)
  have hcolumn : (Position.start.after (above ++ left)).column = left.length := by
    rw [Position.after_append, Position.after_column _ hleft, habove.column_eq, Nat.zero_add]
  generalize Position.start.after (above ++ left) = p at hbyte hline hcolumn
  obtain ⟨byte, line, column⟩ := p
  simp only [start, Nat.zero_add] at hbyte hline hcolumn
  rw [hbyte, hline, hcolumn]

/-- Any part of the characters of a text can be cut out of its bytes. -/
theorem bytesBetween?_of_toList (front w back : List Char) (h : text.toList = front ++ w ++ back) :
    bytesBetween? text (byteLength front) (byteLength front + byteLength w) =
      some (String.ofList w) := by
  have htext : text = String.ofList front ++ String.ofList w ++ String.ofList back := by
    rw [← String.ofList_append, ← String.ofList_append, ← h, String.ofList_toList]
  have hcut := bytesBetween?_eq_some htext
  rwa [String.utf8ByteSize_append] at hcut

theorem bytesBetween?_to_end (front back : List Char) (h : text.toList = front ++ back) :
    bytesBetween? text (byteLength front) text.utf8ByteSize = some (String.ofList back) := by
  have hcut := bytesBetween?_of_toList front back [] (by rw [h, List.append_nil])
  rwa [← byteLength_append, ← h, byteLength_toList] at hcut

/-! ### Lines around bytes -/

theorem lastNewline?_eq_none (h : '\n' ∉ cs) : lastNewline? cs = none := by
  induction cs with
  | nil => rfl
  | cons c cs ih =>
    obtain ⟨hc, hcs⟩ := not_or.mp (mt List.mem_cons.mpr h)
    rw [lastNewline?, ih hcs]
    exact if_neg (Ne.symm hc)

theorem lastNewline?_append (hleft : '\n' ∉ left) (cs : List Char) :
    lastNewline? (cs ++ '\n' :: left) = some (byteLength cs) := by
  induction cs with
  | nil =>
    rw [List.nil_append, lastNewline?, lastNewline?_eq_none hleft]
    rfl
  | cons c cs ih => rw [List.cons_append, lastNewline?, ih, byteLength_cons]

theorem firstNewline?_eq_none (h : '\n' ∉ cs) : firstNewline? cs = none := by
  induction cs with
  | nil => rfl
  | cons c cs ih =>
    obtain ⟨hc, hcs⟩ := not_or.mp (mt List.mem_cons.mpr h)
    rw [firstNewline?, if_neg (Ne.symm hc), ih hcs]
    rfl

theorem firstNewline?_append (hright : '\n' ∉ right) (cs : List Char) :
    firstNewline? (right ++ '\n' :: cs) = some (byteLength right) := by
  induction right with
  | nil => rfl
  | cons c right ih =>
    obtain ⟨hc, hright⟩ := not_or.mp (mt List.mem_cons.mpr hright)
    rw [List.cons_append, firstNewline?, if_neg (Ne.symm hc), ih hright, byteLength_cons]
    rfl

/-- The line around a byte starts after the whole lines before it. -/
theorem lineStart_eq (habove : WholeLines above) (hleft : '\n' ∉ left) :
    (lastNewline? (above ++ left)).elim 0 (· + 1) = byteLength above := by
  rcases habove.eq_nil_or with rfl | ⟨ds, rfl⟩
  · rw [List.nil_append, lastNewline?_eq_none hleft]
    rfl
  · rw [List.append_assoc, List.singleton_append, lastNewline?_append hleft, byteLength_append]
    rfl

/-- The line around a byte between two characters is the one with the number of the place there. -/
theorem lineAround?_eq (h : text.toList = front ++ back) :
    lineAround? text (byteLength front) =
      some (String.ofList (lineText (Position.start.after front).line text.toList)) := by
  obtain ⟨above, left, right, below, rfl, rfl, hshown, hfree, habove, hbelow, -, -⟩ :=
    exists_lineText (List.not_mem_nil : '\n' ∉ []) front back
  rw [List.append_nil] at hshown
  have hleft : '\n' ∉ left := fun hmem => hfree (by simp [hmem])
  have hright : '\n' ∉ right := fun hmem => hfree (by simp [hmem])
  have hbefore : bytesBetween? text 0 (byteLength (above ++ left)) =
      some (String.ofList (above ++ left)) := by
    have hcut := bytesBetween?_of_toList [] (above ++ left) (right ++ below) h
    rwa [byteLength_nil, Nat.zero_add] at hcut
  have hstop : (firstNewline? (right ++ below)).elim text.utf8ByteSize
      (byteLength (above ++ left) + ·) = byteLength above + byteLength (left ++ right) := by
    cases below with
    | nil =>
      rw [List.append_nil, firstNewline?_eq_none hright]
      show text.utf8ByteSize = _
      rw [← byteLength_toList, h]
      simp
    | cons d below =>
      obtain rfl : d = '\n' := hbelow d rfl
      rw [firstNewline?_append hright]
      simp [Nat.add_assoc]
  have hline : bytesBetween? text (byteLength above) (byteLength above + byteLength (left ++ right)) =
      some (String.ofList (left ++ right)) := by
    refine bytesBetween?_of_toList above (left ++ right) below ?_
    rw [h]
    simp
  rw [h, hshown, List.append_nil]
  unfold lineAround?
  rw [hbefore, bytesBetween?_to_end _ _ h]
  show bytesBetween? text ((lastNewline? (String.ofList (above ++ left)).toList).elim 0 (· + 1))
    ((firstNewline? (String.ofList (right ++ below)).toList).elim text.utf8ByteSize
      (byteLength (above ++ left) + ·)) = _
  rw [String.toList_ofList, String.toList_ofList, lineStart_eq habove hleft, hstop, hline]

/-- The number of the line and its start are those of the place after some characters. -/
def OnLine (front : List Char) (line lineStart : Nat) : Prop :=
  line = front.count '\n' ∧ ∃ above left, front = above ++ left ∧ WholeLines above ∧
    '\n' ∉ left ∧ lineStart = byteLength above

theorem OnLine.linesPast {line lineStart : Nat} (h : OnLine front line lineStart)
    (w : List Char) :
    OnLine (front ++ w) (linesPast line lineStart (byteLength front) w).1
      (linesPast line lineStart (byteLength front) w).2 := by
  induction w generalizing front line lineStart with
  | nil =>
    rw [List.append_nil]
    exact h
  | cons c w ih =>
    have hfront : front ++ c :: w = (front ++ [c]) ++ w := by simp
    have hbytes : byteLength front + c.utf8Size = byteLength (front ++ [c]) := by simp
    rw [hfront, NaturalDeduction.linesPast, hbytes]
    obtain ⟨hline, above, left, rfl, habove, hleft, hstart⟩ := h
    split
    · next hc =>
      refine ih ⟨?_, above ++ left ++ [c], [], (List.append_nil _).symm, ?_, List.not_mem_nil, ?_⟩
      · rw [hc, List.count_append, ← hline]
        rfl
      · simp [WholeLines, hc]
      · rw [hc, byteLength_append (above ++ left)]
        rfl
    · next hc =>
      refine ih ⟨?_, above, left ++ [c], List.append_assoc _ _ _, habove, ?_, hstart⟩
      · rw [List.count_append, ← hline, List.count_singleton, if_neg (by simpa using hc)]
        rfl
      · simp [hleft, Ne.symm hc]

/-! ### Moving on -/

namespace Cursor

variable {k : Cursor} {run : List Char → List Char} {lang : Language}

/-- The cursor stands between two parts of its text and knows the line. -/
structure Stands (k : Cursor) (front back : List Char) : Prop where
  source_eq : k.source.toList = front ++ back
  point_eq : k.point = byteLength front
  onLine : OnLine front k.line k.lineStart

theorem stands_start (source : String) : (start source).Stands [] source.toList where
  source_eq := rfl
  point_eq := rfl
  onLine := ⟨rfl, [], [], rfl, by simp [WholeLines], List.not_mem_nil, rfl⟩

theorem Stands.rest? (h : k.Stands front back) : k.rest? = some (String.ofList back) := by
  rw [Cursor.rest?, h.point_eq]
  exact bytesBetween?_to_end front back h.source_eq

/-- Moving on by the bytes of the next characters leads past them. -/
theorem Stands.advance? (h : k.Stands front (w ++ back)) :
    ∃ k', k.advance? (byteLength w) = some k' ∧ k'.Stands (front ++ w) back := by
  have hcut : bytesBetween? k.source k.point (k.point + byteLength w) = some (String.ofList w) := by
    rw [h.point_eq]
    exact bytesBetween?_of_toList front w back (h.source_eq.trans (List.append_assoc _ _ _).symm)
  refine ⟨⟨k.source, k.point + byteLength w, (linesPast k.line k.lineStart k.point w).1,
    (linesPast k.line k.lineStart k.point w).2⟩, ?_, ?_, ?_, ?_⟩
  · unfold Cursor.advance?
    rw [hcut]
    show some (Cursor.mk k.source (k.point + byteLength w)
      (linesPast k.line k.lineStart k.point (String.ofList w).toList).1
      (linesPast k.line k.lineStart k.point (String.ofList w).toList).2) = _
    rw [String.toList_ofList]
  · exact h.source_eq.trans (List.append_assoc _ _ _).symm
  · show k.point + byteLength w = _
    rw [h.point_eq, byteLength_append]
  · show OnLine _ (linesPast k.line k.lineStart k.point w).1
      (linesPast k.line k.lineStart k.point w).2
    rw [h.point_eq]
    exact h.onLine.linesPast w

theorem Stands.take? (h : k.Stands front (w ++ back)) (hrun : run (w ++ back) = w) :
    ∃ k', k.take? run = some k' ∧ k'.Stands (front ++ w) back := by
  obtain ⟨k', hadvance, hstands⟩ := h.advance?
  refine ⟨k', ?_, hstands⟩
  unfold Cursor.take?
  rw [h.rest?]
  show k.advance? (byteLength (run (String.ofList (w ++ back)).toList)) = _
  rw [String.toList_ofList, hrun, hadvance]

/-! ### Past a token -/

theorem eq_of_isBracket (h : ((Bracket.opened? c).isSome || (Bracket.closed? c).isSome) = true) :
    c = '(' ∨ c = '[' ∨ c = '\x7b' ∨ c = ')' ∨ c = ']' ∨ c = '\x7d' := by
  by_contra hne
  simp only [not_or] at hne
  simp [Bracket.opened?, Bracket.closed?, hne] at h

/-- Characters of ASCII have one byte. -/
theorem utf8Size_eq_one (h : c ≤ 'z') : c.utf8Size = 1 := by
  rw [Char.utf8Size_eq_one_iff]
  exact UInt32.le_trans h (by decide)

theorem utf8Size_of_isNegation (h : isNegation c = true) : c.utf8Size = 1 := by
  simp only [isNegation, Bool.or_eq_true, beq_iff_eq] at h
  rcases h with rfl | rfl <;> rfl

/-- A single character that is part of no name and no run of signs is passed by its bytes. -/
theorem Stands.advance_single (h : k.Stands front (c :: cs)) (htail : tokenTail c cs = [])
    {bytes : Nat} (hbytes : c.utf8Size = bytes) (hrest : cs = tokenTail c cs ++ back) :
    ∃ k', k.advance? bytes = some k' ∧ k'.Stands (front ++ c :: tokenTail c cs) back := by
  obtain rfl : cs = back := by rw [hrest, htail, List.nil_append]
  have hsplit : k.Stands front ([c] ++ cs) := h
  obtain ⟨k', hadvance, hstands⟩ := hsplit.advance?
  have hlength : byteLength [c] = bytes := by simp [hbytes]
  rw [hlength] at hadvance
  rw [htail]
  exact ⟨k', hadvance, hstands⟩

/-- A token is passed by the bytes that it has, whatever it starts with. -/
theorem Stands.pass? (h : k.Stands front (c :: cs)) (hrest : cs = tokenTail c cs ++ back) :
    ∃ k', k.pass? c (String.ofList (c :: cs)) = some k' ∧
      k'.Stands (front ++ c :: tokenTail c cs) back := by
  have htake : ∀ run, run (c :: cs) = c :: tokenTail c cs →
      ∃ k', k.take? run = some k' ∧ k'.Stands (front ++ c :: tokenTail c cs) back := by
    intro run hrun
    have hcs : c :: cs = c :: tokenTail c cs ++ back := by rw [List.cons_append, ← hrest]
    exact Stands.take? (hcs ▸ h) (hcs ▸ hrun)
  unfold Cursor.pass?
  split
  · next hc =>
    -- commas and marks of punctuation
    have hclass : isNameChar c = false ∧ isSign c = false ∧ c.utf8Size = 1 := by
      simp only [Bool.or_eq_true, beq_iff_eq] at hc
      rcases hc with (rfl | rfl) | rfl <;> decide
    exact h.advance_single (tokenTail_eq_nil hclass.1 hclass.2.1 cs) hclass.2.2 hrest
  split
  · next hc =>
    -- brackets
    have hclass : isNameChar c = false ∧ isSign c = false ∧ c.utf8Size = 1 := by
      rcases eq_of_isBracket hc with rfl | rfl | rfl | rfl | rfl | rfl <;> decide
    exact h.advance_single (tokenTail_eq_nil hclass.1 hclass.2.1 cs) hclass.2.2 hrest
  split
  · next hname =>
    refine htake _ ?_
    by_cases hcolon : (cs.dropWhile isNameChar).head? = some ':'
    · simp [nameRun, tokenTail, hname, hcolon]
    · simp [nameRun, tokenTail, hname, hcolon]
  next hname =>
  have hname : isNameChar c = false := by simpa using hname
  split
  · next hnegation =>
    have hsign := isSign_of_isNegation hnegation
    have hone := utf8Size_of_isNegation hnegation
    -- what comes after the sign starts at its second byte
    have hnext : bytesBetween? (String.ofList (c :: cs)) 1 (String.ofList (c :: cs)).utf8ByteSize =
        some (String.ofList cs) := by
      have hcut := bytesBetween?_to_end [c] cs (String.toList_ofList : _ = c :: cs)
      rwa [byteLength_cons, byteLength_nil, Nat.add_zero, hone] at hcut
    rw [hnext]
    show ∃ k', (if (String.ofList cs).toList.head?.any isNegation = true then k.advance? 1
      else k.take? (·.takeWhile isSign)) = some k' ∧ _
    rw [String.toList_ofList]
    split
    · next hdouble =>
      have htail : tokenTail c cs = [] := by simp [tokenTail, hname, hnegation, hdouble]
      exact h.advance_single htail hone hrest
    · next hsingle =>
      refine htake _ ?_
      simp [tokenTail, hname, hsign, hsingle]
  next hnegation =>
  split
  · next hsign =>
    refine htake _ ?_
    simp [tokenTail, hname, hnegation, hsign]
  next hsign =>
  have htail := tokenTail_eq_nil hname (by simpa using hsign) cs
  split
  · next hletter =>
    have hle : c ≤ 'z' := by
      simp only [Bool.and_eq_true, decide_eq_true_eq] at hletter
      exact hletter.2
    exact h.advance_single htail (utf8Size_eq_one hle) hrest
  · exact h.advance_single htail rfl hrest

/-! ### The next token -/

/-- The column of a cursor is the number of characters since the start of its line. -/
theorem Stands.column_eq (h : k.Stands front back) :
    ∃ left, bytesBetween? k.source k.lineStart k.point = some left ∧
      (⟨k.point, k.line, left.length⟩ : Position) = Position.start.after front := by
  obtain ⟨hline, above, left, rfl, habove, hleft, hstart⟩ := h.onLine
  refine ⟨String.ofList left, ?_, ?_⟩
  · rw [hstart, h.point_eq, byteLength_append]
    exact bytesBetween?_of_toList above left back h.source_eq
  · rw [Position.start_after habove hleft, h.point_eq, hline, String.length_ofList]

/-- After the blanks at the end of the text, the next token is the one there. -/
theorem Stands.next?_end {first : Cursor} (htake : k.take? (·.takeWhile isBlank) = some first)
    (h : first.Stands front []) :
    k.next? lang = some (⟨.eof, "", Position.start.after front⟩, first) := by
  obtain ⟨left, hleft, hplace⟩ := h.column_eq
  unfold Cursor.next?
  rw [htake]
  show ((bytesBetween? first.source first.lineStart first.point).bind fun text =>
    first.rest?.bind fun rest => _) = _
  rw [hleft, h.rest?, Option.bind_some, Option.bind_some, String.toList_ofList, hplace]
  rfl

/-- After the blanks before a token, the next token is that one. -/
theorem Stands.next?_token {first : Cursor} (htake : k.take? (·.takeWhile isBlank) = some first)
    (h : first.Stands front (c :: cs)) (hrest : cs = tokenTail c cs ++ back) :
    ∃ last, k.next? lang =
        some (lang.token (c :: tokenTail c cs) (Position.start.after front), last) ∧
      last.Stands (front ++ c :: tokenTail c cs) back := by
  obtain ⟨left, hleft, hplace⟩ := h.column_eq
  obtain ⟨last, hpass, hlast⟩ := h.pass? hrest
  have hlexeme : bytesBetween? first.source first.point last.point =
      some (String.ofList (c :: tokenTail c cs)) := by
    rw [h.point_eq, hlast.point_eq, byteLength_append]
    refine bytesBetween?_of_toList front (c :: tokenTail c cs) back ?_
    rw [h.source_eq, List.append_assoc, List.cons_append, ← hrest]
  refine ⟨last, ?_, hlast⟩
  unfold Cursor.next?
  rw [htake]
  show ((bytesBetween? first.source first.lineStart first.point).bind fun text =>
    first.rest?.bind fun rest => _) = _
  rw [hleft, h.rest?, Option.bind_some, Option.bind_some, String.toList_ofList, hplace]
  show ((first.pass? c (String.ofList (c :: cs))).bind fun last =>
    (bytesBetween? first.source first.point last.point).bind fun lexeme => _) = _
  rw [hpass, Option.bind_some, hlexeme]
  rfl

end Cursor

/-- The tokens of a text from a place on. -/
def TokenStream.fromPlace (lang : Language) (front back : List Char) : TokenStream where
  source := front ++ back
  pending := lang.scanFrom 0 (Position.start.after front) back
  eof := ⟨.eof, "", Position.start.after (front ++ back)⟩

/-- A cursor between two characters has a next token, the first one from there on. After it, the
    cursor stands between two characters again, and the tokens from there on are the others. -/
theorem Cursor.Stands.next? {k : Cursor} (h : k.Stands front back) (lang : Language) :
    ∃ k' front' back', k.next? lang = some ((TokenStream.fromPlace lang front back).peek, k') ∧
      k'.Stands front' back' ∧
      TokenStream.fromPlace lang front' back' = (TokenStream.fromPlace lang front back).tail := by
  generalize hgap : back.takeWhile isBlank = gap
  have hblank : ∀ c ∈ gap, isBlank c = true := by
    intro c hc
    exact List.mem_takeWhile_imp (hgap ▸ hc)
  obtain ⟨after, hafter⟩ : ∃ after, back.dropWhile isBlank = after := ⟨_, rfl⟩
  obtain rfl : back = gap ++ after := by rw [← hgap, ← hafter, List.takeWhile_append_dropWhile]
  obtain ⟨first, htake, hfirst⟩ := h.take? hgap
  -- blanks do not change which tokens come next
  have hskip : TokenStream.fromPlace lang front (gap ++ after) =
      TokenStream.fromPlace lang (front ++ gap) after := by
    rw [TokenStream.fromPlace, TokenStream.fromPlace, scanFrom_gap hblank,
      Position.after_append _ front gap, ← List.append_assoc]
  rw [hskip]
  cases after with
  | nil =>
    refine ⟨first, front ++ gap, [], ?_, hfirst, rfl⟩
    rw [hfirst.next?_end htake, TokenStream.peek, TokenStream.fromPlace, List.append_nil]
    rfl
  | cons c cs =>
    have hc : isBlank c = false := by
      have hhead := List.head?_dropWhile_not isBlank (gap ++ c :: cs)
      rw [hafter] at hhead
      simpa using hhead
    obtain ⟨rest, hrest⟩ := exists_eq_tokenTail_append c cs
    obtain ⟨last, hnext, hlast⟩ := hfirst.next?_token htake hrest
    have hcuts : Cuts (c :: tokenTail c cs) rest := ⟨hc, by rw [← hrest]⟩
    have hsplit : c :: cs = c :: tokenTail c cs ++ rest := by rw [List.cons_append, ← hrest]
    have hscan : lang.scanFrom 0 (Position.start.after (front ++ gap)) (c :: tokenTail c cs ++ rest) =
        _ := scanFrom_append hcuts _
    rw [← Position.after_append, ← hsplit] at hscan
    refine ⟨last, _, rest, ?_, hlast, ?_⟩
    · rw [hnext, TokenStream.peek, TokenStream.fromPlace, hscan]
      rfl
    · rw [TokenStream.tail, TokenStream.fromPlace, TokenStream.fromPlace, hscan, hsplit,
        ← List.append_assoc]
      rfl

/-! ### Scanners -/

namespace TokenStream

variable {lang : Language}

/-- The next token starts between two characters. -/
theorem exists_peek_position (lang : Language) (front back : List Char) :
    ∃ front' back', front ++ back = front' ++ back' ∧
      (fromPlace lang front back).peek.position = Position.start.after front' := by
  have htiles := tiles_scanFrom lang (Position.start.after front) back
  unfold peek fromPlace
  cases hscan : lang.scanFrom 0 (Position.start.after front) back with
  | nil => exact ⟨front ++ back, [], (List.append_nil _).symm, rfl⟩
  | cons t ts =>
    obtain ⟨gap, w, rest, rfl, -, rfl⟩ := htiles.exists_of_mem (hscan ▸ List.mem_cons_self)
    exact ⟨front ++ gap, w ++ rest, by simp, (Position.after_append _ front gap).symm⟩

end TokenStream

namespace Scanner

variable {s : Scanner} {stream : TokenStream}

/-- The scanner has the tokens of the stream before it: the next token is the same, and its cursor
    stands where the others come from. -/
structure Shows (s : Scanner) (stream : TokenStream) : Prop where
  token_eq : s.token = stream.peek
  placed : ∃ front back, stream = .fromPlace s.language front back
  source_eq : s.cursor.source.toList = stream.source
  cursor : ∃ front back, s.cursor.Stands front back ∧
    TokenStream.fromPlace s.language front back = stream.tail

/-- The scanner of a text can be made, and shows all its tokens. -/
theorem ofText?_shows (lang : Language) (source : String) :
    ∃ s, ofText? lang source = some s ∧ s.Shows (.ofText lang source) := by
  have hstart := Cursor.stands_start source
  obtain ⟨k, front, back, hnext, hstands, htail⟩ := hstart.next? lang
  refine ⟨⟨lang, k, _⟩, ?_, rfl, ⟨[], source.toList, rfl⟩, ?_, front, back, hstands, htail⟩
  · rw [ofText?, hnext]
    rfl
  · exact hstands.source_eq.trans (congrArg TokenStream.source htail)

/-- A scanner always has a next token, and shows the others after it. -/
theorem Shows.consume? (h : s.Shows stream) :
    ∃ s', s.consume? = some (stream.peek, s') ∧ s'.Shows stream.tail := by
  obtain ⟨front, back, hstands, htail⟩ := h.cursor
  obtain ⟨k, front', back', hnext, hstands', htail'⟩ := hstands.next? s.language
  rw [htail] at hnext htail'
  refine ⟨⟨s.language, k, stream.tail.peek⟩, ?_, rfl, ⟨front, back, htail.symm⟩, ?_, front', back',
    hstands', htail'⟩
  · rw [Scanner.consume?, hnext, ← h.token_eq]
    rfl
  · exact hstands'.source_eq.trans (congrArg TokenStream.source htail')

/-- A scanner can always report an error, which is that of the stream. -/
theorem Shows.error? (h : s.Shows stream) (message : String) :
    s.error? message = some (stream.error message) := by
  obtain ⟨front, back, hplace⟩ := h.placed
  obtain ⟨front', back', hsplit, hposition⟩ :=
    TokenStream.exists_peek_position s.language front back
  rw [← hplace] at hposition
  have hsource : s.cursor.source.toList = front' ++ back' := by
    rw [h.source_eq, hplace, ← hsplit]
    rfl
  have hbyte : s.token.position.byte = byteLength front' := by
    rw [h.token_eq, hposition, Position.after_byte]
    exact Nat.zero_add _
  rw [Scanner.error?, hbyte, lineAround?_eq hsource, h.token_eq, TokenStream.error, ← hposition,
    h.source_eq]
  rfl

/-- As many tokens can be taken as wanted: first those of the stream, then always the one at the
    end. -/
theorem Shows.consumeAll? (h : s.Shows stream) (count : Nat) :
    ∃ s', s.consumeAll? count =
        some ((stream.pending ++ List.replicate count stream.eof).take count, s') ∧
      s'.Shows { stream with pending := stream.pending.drop count } := by
  induction count generalizing s stream with
  | zero => exact ⟨s, by simp [Scanner.consumeAll?], h⟩
  | succ count ih =>
    obtain ⟨s', hconsume, hs'⟩ := h.consume?
    obtain ⟨s'', hall, hs''⟩ := ih hs'
    refine ⟨s'', ?_, ?_⟩
    · rw [Scanner.consumeAll?, hconsume]
      show ((s'.consumeAll? count).bind fun next => some (stream.peek :: next.1, next.2)) = _
      rw [hall, Option.bind_some]
      cases hpending : stream.pending with
      | nil => simp [TokenStream.peek, TokenStream.tail, hpending, List.replicate_succ]
      | cons t ts =>
        have htake : (ts ++ List.replicate (count + 1) stream.eof).take count =
            (ts ++ List.replicate count stream.eof).take count := by
          rw [List.replicate_succ', ← List.append_assoc]
          exact List.take_append_of_le_length (by simp)
        rw [TokenStream.peek, TokenStream.tail, hpending, List.cons_append, List.take_succ_cons,
          htake]
        rfl
    · have hdrop : stream.tail.pending.drop count = stream.pending.drop (count + 1) := by
        rw [TokenStream.tail, List.drop_tail]
      rw [hdrop] at hs''
      exact hs''

end Scanner

end NaturalDeduction
