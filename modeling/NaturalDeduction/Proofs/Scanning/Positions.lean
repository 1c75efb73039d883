import Mathlib.Data.List.Induction
import NaturalDeduction.Proofs.Scanning
import NaturalDeduction.Token.Stream

/-! # Where tokens stand

    The tokens of a text are cut from it in order, with nothing but blanks
    before, between and after them (`Tiles`). So the place of a token is the
    place after all characters before it, places are in reading order, and no
    two tokens share one. An error at a token shows the line of the text that
    the token stands in (`SyntaxError.PointsAt`).
-/

namespace NaturalDeduction

/-! ### Places -/

namespace Position

variable {p q r : Position} {cs : List Char}

/-- The place comes earlier in a text than another one. -/
def Before (p q : Position) : Prop :=
  p.line < q.line ∨ p.line = q.line ∧ p.column < q.column

theorem Before.trans (h : p.Before q) (h' : q.Before r) : p.Before r := by
  unfold Before at *
  omega

theorem Before.ne (h : p.Before q) : (p.line, p.column) ≠ (q.line, q.column) := by
  intro heq
  simp only [Prod.mk.injEq] at heq
  unfold Before at h
  omega

theorem after_append (p : Position) (cs ds : List Char) :
    p.after (cs ++ ds) = (p.after cs).after ds := List.foldl_append

theorem before_advance (p : Position) (c : Char) : p.Before (p.advance c) := by
  unfold Before advance
  split
  · exact .inl (Nat.lt_succ_self _)
  · exact .inr ⟨rfl, Nat.lt_succ_self _⟩

theorem before_after (p : Position) (h : cs ≠ []) : p.Before (p.after cs) := by
  induction cs generalizing p with
  | nil => exact absurd rfl h
  | cons c cs ih =>
    by_cases hcs : cs = []
    · subst hcs
      exact p.before_advance c
    · exact (p.before_advance c).trans (ih (p.advance c) hcs)

/-- Lines are counted by the newlines passed. -/
theorem after_line (p : Position) (cs : List Char) :
    (p.after cs).line = p.line + cs.count '\n' := by
  induction cs generalizing p with
  | nil => rfl
  | cons c cs ih =>
    show ((p.advance c).after cs).line = _
    rw [ih, List.count_cons]
    by_cases hc : c = '\n'
    · simp [advance, hc]
      omega
    · simp [advance, hc]

/-- Within a line, columns are counted by the characters passed. -/
theorem after_column (p : Position) (h : '\n' ∉ cs) :
    (p.after cs).column = p.column + cs.length := by
  induction cs generalizing p with
  | nil => rfl
  | cons c cs ih =>
    obtain ⟨hc, hcs⟩ := not_or.mp (mt List.mem_cons.mpr h)
    show ((p.advance c).after cs).column = _
    rw [ih _ hcs, advance, if_neg (Ne.symm hc), List.length_cons]
    show p.column + 1 + cs.length = _
    omega

/-- A newline leads back to the first column. -/
theorem after_newline_column (p : Position) (cs : List Char) :
    (p.after (cs ++ ['\n'])).column = 0 := by
  rw [after_append]
  rfl

end Position

/-! ### Lines -/

/-- The characters are whole lines, each with its newline. -/
def WholeLines (cs : List Char) : Prop := ∀ c ∈ cs.getLast?, c = '\n'

variable {above left cs w rest back front : List Char}

theorem WholeLines.eq_nil_or (h : WholeLines cs) : cs = [] ∨ ∃ ds, cs = ds ++ ['\n'] := by
  rcases List.eq_nil_or_concat cs with hnil | ⟨ds, c, rfl⟩
  · exact .inl hnil
  · obtain rfl : c = '\n' := h c (by simp)
    exact .inr ⟨ds, List.concat_eq_append⟩

/-- Characters are whole lines and the start of one more. -/
theorem exists_wholeLines (cs : List Char) :
    ∃ above left, cs = above ++ left ∧ WholeLines above ∧ '\n' ∉ left := by
  induction cs using List.reverseRecOn with
  | nil => exact ⟨[], [], rfl, by simp [WholeLines], List.not_mem_nil⟩
  | append_singleton cs c ih =>
    by_cases hc : c = '\n'
    · exact ⟨cs ++ [c], [], (List.append_nil _).symm, by simp [WholeLines, hc], List.not_mem_nil⟩
    · obtain ⟨above, left, rfl, habove, hleft⟩ := ih
      refine ⟨above, left ++ [c], List.append_assoc _ _ _, habove, ?_⟩
      simp [hleft, Ne.symm hc]

theorem WholeLines.column_eq (h : WholeLines above) :
    (Position.start.after above).column = 0 := by
  rcases h.eq_nil_or with rfl | ⟨ds, rfl⟩
  · rfl
  · exact Position.start.after_newline_column ds

/-- The line with the number of the lines above it is what comes after them, up to a newline. -/
theorem lineText_append (h : WholeLines above) (rest : List Char) :
    lineText (above.count '\n') (above ++ rest) = rest.takeWhile (· ≠ '\n') := by
  generalize hn : above.count '\n' = n
  induction n generalizing above with
  | zero =>
    -- without a newline there is no whole line
    rcases h.eq_nil_or with rfl | ⟨ds, rfl⟩
    · rfl
    · simp at hn
  | succ n ih =>
    have hmem : '\n' ∈ above := List.count_pos_iff.mp (by omega)
    obtain ⟨line, below, rfl, hline⟩ := List.eq_append_cons_of_mem hmem
    have hbelow : WholeLines below := by
      intro c hc
      refine h c ?_
      rw [List.getLast?_append, List.getLast?_cons, Option.mem_def.mp hc]
      rfl
    have hcount : below.count '\n' = n := by
      rw [List.count_append, List.count_eq_zero.mpr hline, List.count_cons_self] at hn
      omega
    have hdrop : ((line ++ '\n' :: below) ++ rest).dropWhile (· ≠ '\n') =
        '\n' :: (below ++ rest) := by
      rw [List.append_assoc, List.dropWhile_append_of_pos]
      · simp
      · intro c hc
        simpa using ne_of_mem_of_not_mem hc hline
    rw [lineText, hdrop]
    exact ih hbelow hcount

/-- The line with the number of a place is the line around what stands there. -/
theorem exists_lineText (hw : '\n' ∉ w) (front back : List Char) :
    ∃ above left right below, front = above ++ left ∧ back = right ++ below ∧
      lineText (Position.start.after front).line (front ++ w ++ back) = left ++ w ++ right ∧
        '\n' ∉ left ++ w ++ right ∧ WholeLines above ∧ (∀ c ∈ below.head?, c = '\n') ∧
          (Position.start.after front).line = above.count '\n' ∧
            (Position.start.after front).column = left.length := by
  obtain ⟨above, left, rfl, habove, hleft⟩ := exists_wholeLines front
  have hline : (Position.start.after (above ++ left)).line = above.count '\n' := by
    rw [Position.after_line, List.count_append, List.count_eq_zero.mpr hleft]
    exact Nat.zero_add _
  have hcolumn : (Position.start.after (above ++ left)).column = left.length := by
    rw [Position.after_append, Position.after_column _ hleft, habove.column_eq, Nat.zero_add]
  have hright : '\n' ∉ back.takeWhile (· ≠ '\n') := by
    intro hnewline
    simpa using List.mem_takeWhile_imp hnewline
  -- on the right, the line ends before the next newline
  refine ⟨above, left, back.takeWhile (· ≠ '\n'), back.dropWhile (· ≠ '\n'), rfl,
    List.takeWhile_append_dropWhile.symm, ?_, ?_, habove, ?_, hline, hcolumn⟩
  · rw [hline, List.append_assoc, List.append_assoc above, lineText_append habove,
      List.takeWhile_append_of_pos (by simpa using fun c hc => ne_of_mem_of_not_mem hc hleft),
      List.takeWhile_append_of_pos (by simpa using fun c hc => ne_of_mem_of_not_mem hc hw),
      List.append_assoc]
  · simp only [List.mem_append, not_or]
    exact ⟨⟨hleft, hw⟩, hright⟩
  · intro c hc
    have hhead := List.head?_dropWhile_not (· ≠ '\n') back
    rw [Option.mem_def.mp hc] at hhead
    simpa using hhead

/-! ### Tokens between blanks -/

section

variable {lang : Language} {c : Char} {p : Position} {t t' : Token} {ts before after : List Token}

/-- The tokens are all that is cut from the characters, from a place on: before, between and after
    them there are only blanks. -/
inductive Tiles (lang : Language) : Position → List Char → List Token → Prop where
  | blanks {p : Position} {gap : List Char} :
      (∀ c ∈ gap, isBlank c = true) → Tiles lang p gap []
  | token {p : Position} {gap w rest : List Char} {ts : List Token} :
      (∀ c ∈ gap, isBlank c = true) → Cuts w rest →
        Tiles lang (p.after (gap ++ w)) rest ts →
          Tiles lang p (gap ++ w ++ rest) (lang.token w (p.after gap) :: ts)

/-- The characters of a token come next. -/
theorem exists_eq_tokenTail_append (c : Char) (cs : List Char) :
    ∃ rest, cs = tokenTail c cs ++ rest := by
  unfold tokenTail
  split
  · dsimp only
    split
    · next hcolon =>
      obtain ⟨rest, hrest⟩ := List.head?_eq_some_iff.mp hcolon
      refine ⟨rest, ?_⟩
      rw [List.append_assoc, List.singleton_append, ← hrest, List.takeWhile_append_dropWhile]
    · exact ⟨cs.dropWhile isNameChar, List.takeWhile_append_dropWhile.symm⟩
  · split
    · exact ⟨cs, rfl⟩
    · split
      · exact ⟨cs.dropWhile isSign, List.takeWhile_append_dropWhile.symm⟩
      · exact ⟨cs, rfl⟩

theorem tiles_blank (hc : isBlank c = true) (h : Tiles lang (p.advance c) cs ts) :
    Tiles lang p (c :: cs) ts := by
  cases h with
  | blanks hgap =>
    refine .blanks ?_
    simpa [hc] using hgap
  | @token _ gap w rest ts hgap hcuts hrest =>
    have hgap' : ∀ d ∈ c :: gap, isBlank d = true := by simpa [hc] using hgap
    exact .token hgap' hcuts hrest

theorem tiles_scanFrom (lang : Language) (p : Position) (cs : List Char) :
    Tiles lang p cs (lang.scanFrom 0 p cs) := by
  -- a token or a blank is taken off the text at each step
  induction hn : cs.length using Nat.strongRecOn generalizing p cs with
  | ind n ih =>
    cases cs with
    | nil => exact .blanks (by simp)
    | cons c cs =>
      rw [List.length_cons] at hn
      by_cases hc : isBlank c = true
      · have hscan : lang.scanFrom 0 p (c :: cs) = lang.scanFrom 0 (p.advance c) cs := by
          simp [Language.scanFrom, hc]
        rw [hscan]
        exact tiles_blank hc (ih cs.length (by omega) _ _ rfl)
      · obtain ⟨rest, hrest⟩ := exists_eq_tokenTail_append c cs
        have hcuts : Cuts (c :: tokenTail c cs) rest := by
          refine ⟨by simpa using hc, ?_⟩
          rw [← hrest]
        have hlength := congrArg List.length hrest
        rw [List.length_append] at hlength
        have htiles := ih rest.length (by omega) (p.after (c :: tokenTail c cs)) rest rfl
        have hscan : lang.scanFrom 0 p (c :: tokenTail c cs ++ rest) = _ := scanFrom_append hcuts p
        have hcs : c :: cs = [] ++ (c :: tokenTail c cs) ++ rest := by
          rw [List.nil_append, List.cons_append, ← hrest]
        rw [hcs, List.nil_append, hscan]
        exact .token (List.forall_mem_nil _) hcuts htiles

/-- There are no more tokens than characters. -/
theorem Tiles.length_le (h : Tiles lang p cs ts) : ts.length ≤ cs.length := by
  induction h with
  | blanks => exact Nat.zero_le _
  | @token p gap w rest ts _ hcuts _ ih =>
    have hpos := List.length_pos_iff.mpr hcuts.ne_nil
    simp only [List.length_cons, List.length_append]
    omega

/-- A token stands in the text right after the characters that its place is after. -/
theorem Tiles.exists_of_mem (h : Tiles lang p cs ts) (ht : t ∈ ts) :
    ∃ front w back, cs = front ++ w ++ back ∧ Cuts w back ∧ t = lang.token w (p.after front) := by
  induction h with
  | blanks _ => cases ht
  | @token p gap w rest ts hgap hcuts _ ih =>
    rcases List.mem_cons.mp ht with rfl | hmem
    · exact ⟨gap, w, rest, rfl, hcuts, rfl⟩
    · obtain ⟨front, w', back, rfl, hcuts', rfl⟩ := ih hmem
      refine ⟨gap ++ w ++ front, w', back, by simp, hcuts', ?_⟩
      rw [Position.after_append p (gap ++ w)]

/-- Tokens are in reading order, and all of them come before the end of the text. -/
theorem Tiles.pairwise (h : Tiles lang p cs ts) (eof : Token) (heof : eof.position = p.after cs) :
    (ts ++ [eof]).Pairwise fun t t' => t.position.Before t'.position := by
  induction h with
  | blanks _ => simp
  | @token p gap w rest ts hgap hcuts htiles ih =>
    have heof' : eof.position = (p.after (gap ++ w)).after rest := by
      rw [heof, Position.after_append p (gap ++ w)]
    refine List.Pairwise.cons ?_ (ih heof')
    -- what comes later is after the characters of the token
    have hlater : ∀ cs, (p.after gap).Before ((p.after (gap ++ w)).after cs) := by
      intro cs
      rw [Position.after_append, ← Position.after_append (p.after gap)]
      refine Position.before_after _ ?_
      simp [hcuts.ne_nil]
    intro t' ht'
    rcases List.mem_append.mp ht' with hmem | hmem
    · obtain ⟨front, w', back, -, -, rfl⟩ := htiles.exists_of_mem hmem
      exact hlater front
    · obtain rfl := List.mem_singleton.mp hmem
      show (p.after gap).Before t'.position
      rw [heof']
      exact hlater rest

/-- No token reaches over a blank. -/
theorem isBlank_of_mem_tokenTail {d : Char} (h : d ∈ tokenTail c cs) : isBlank d = false := by
  unfold tokenTail at h
  split at h
  · dsimp only at h
    split at h
    · rcases List.mem_append.mp h with hrun | hcolon
      · exact isBlank_of_isNameChar (List.mem_takeWhile_imp hrun)
      · obtain rfl := List.mem_singleton.mp hcolon
        decide
    · exact isBlank_of_isNameChar (List.mem_takeWhile_imp h)
  · split at h
    · cases h
    · split at h
      · exact isBlank_of_isSign (List.mem_takeWhile_imp h)
      · cases h

theorem Cuts.newline_notMem (h : Cuts w rest) : '\n' ∉ w := by
  match w, h with
  | c :: tail, h =>
    intro hmem
    have hblank : isBlank '\n' = true := by decide
    rcases List.mem_cons.mp hmem with rfl | htail
    · rw [h.1] at hblank
      cases hblank
    · rw [← h.2] at htail
      rw [isBlank_of_mem_tokenTail htail] at hblank
      cases hblank

end

/-! ### Errors at tokens -/

/-- The error stands at a token of a text, at which no other token stands, and shows the line that
    the token is in. -/
structure SyntaxError.PointsAt (e : SyntaxError) (lang : Language) (source : String)
    (before : List Token) (t : Token) (after : List Token) : Prop where
  /-- The token is one of the text, or stands at its end. -/
  split : (TokenStream.ofText lang source).toList = before ++ t :: after
  line_eq : e.line = t.position.line
  column_eq : e.column = t.position.column
  alone : ∀ t' ∈ before ++ after, (t'.position.line, t'.position.column) ≠ (e.line, e.column)
  /-- The line shown is all that stands between two newlines, and holds the token. -/
  shown : ∃ above left right below,
    source.toList = above ++ (left ++ t.lexeme.toList ++ right) ++ below ∧
      e.lineText.toList = left ++ t.lexeme.toList ++ right ∧ '\n' ∉ e.lineText.toList ∧
        WholeLines above ∧ (∀ c ∈ below.head?, c = '\n') ∧
          e.line = above.count '\n' ∧ e.column = left.length

namespace TokenStream

variable {lang : Language} {source : String} {t : Token} {before rest : List Token}

/-- A token of a text, or the one at its end, stands in the text where its place says. -/
theorem exists_of_mem_toList (ht : t ∈ (ofText lang source).toList) :
    ∃ front back, source.toList = front ++ t.lexeme.toList ++ back ∧
      t.position = Position.start.after front ∧ '\n' ∉ t.lexeme.toList := by
  rcases List.mem_append.mp ht with hmem | hmem
  · obtain ⟨front, w, back, hsource, hcuts, rfl⟩ :=
      (tiles_scanFrom lang .start source.toList).exists_of_mem hmem
    refine ⟨front, back, ?_, rfl, ?_⟩
    · rw [Language.token, String.toList_ofList, hsource]
    · rw [Language.token, String.toList_ofList]
      exact hcuts.newline_notMem
  · obtain rfl := List.mem_singleton.mp hmem
    exact ⟨source.toList, [], by simp [ofText], rfl, by simp [ofText]⟩

/-- An error at the next token points at it. -/
theorem pointsAt_error (h : lang.scan source = before ++ rest) (message : String) :
    ∃ after, ({ ofText lang source with pending := rest }.error message).PointsAt lang source before
      (rest.headD (ofText lang source).eof) after := by
  obtain ⟨after, hsplit⟩ : ∃ after, (ofText lang source).toList =
      before ++ rest.headD (ofText lang source).eof :: after := by
    cases rest with
    | nil => exact ⟨[], by simp [toList, ofText, h]⟩
    | cons t rest => exact ⟨rest ++ [(ofText lang source).eof], by simp [toList, ofText, h]⟩
  refine ⟨after, ?_⟩
  generalize ht : rest.headD (ofText lang source).eof = t at hsplit
  have herror : { ofText lang source with pending := rest }.error message =
      ⟨message, t.position.line, t.position.column,
        String.ofList (lineText t.position.line source.toList)⟩ := by
    rw [← ht]
    rfl
  have hmem : t ∈ (ofText lang source).toList := by
    rw [hsplit]
    simp
  obtain ⟨front, back, hsource, hposition, hlexeme⟩ := exists_of_mem_toList hmem
  obtain ⟨above, left, right, below, hfront, hback, hshown, hfree, habove, hbelow, hline,
    hcolumn⟩ := exists_lineText hlexeme front back
  rw [← hposition] at hline hcolumn hshown
  rw [← hsource] at hshown
  have hpairwise := (tiles_scanFrom lang .start source.toList).pairwise
    (ofText lang source).eof rfl
  rw [herror]
  constructor
  case split => exact hsplit
  case line_eq => rfl
  case column_eq => rfl
  case alone =>
    intro t' ht'
    -- other tokens come strictly before or strictly after it
    have horder : (before ++ t :: after).Pairwise fun t t' => t.position.Before t'.position :=
      hsplit ▸ hpairwise
    rw [List.pairwise_append, List.pairwise_cons] at horder
    rcases List.mem_append.mp ht' with hbefore | hafter
    · exact (horder.2.2 t' hbefore t List.mem_cons_self).ne
    · exact (horder.2.1.1 t' hafter).ne.symm
  case shown =>
    refine ⟨above, left, right, below, ?_, ?_, ?_, habove, hbelow, hline, hcolumn⟩
    · rw [hsource, hfront, hback]
      simp
    · rw [String.toList_ofList, hshown]
    · rw [String.toList_ofList, hshown]
      exact hfree

end TokenStream

end NaturalDeduction
