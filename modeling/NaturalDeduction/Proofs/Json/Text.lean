import NaturalDeduction.Json.Printer
import NaturalDeduction.Proofs.Json.Decoding
import NaturalDeduction.Proofs.Scanning

/-! # Written values are read back

    The reader finds in the text of a plain value this value again, wherever
    the text stands: what comes next only has to be the end of the text, a
    comma or a closing bracket, so that it does not go on with a number.

    * **Strings**: each character is written as one piece of a literal, and the
      pieces are joined to the same characters.
    * **Numbers**: the digits of a number have its value and no leading zero.
    * **Brackets**: between brackets the texts of the members are read one by
      one. The bound on nesting and on members is the length of the text, and
      no part of a text is longer than the text.
-/

namespace NaturalDeduction.Json

variable {c : Char} {cs rest : List Char} {ps : List Piece}

/-! ### What comes next -/

/-- What may come after a value: nothing, a comma or a closing bracket. -/
def Ends (rest : List Char) : Prop := ∀ c ∈ rest.head?, c = ',' ∨ c = ']' ∨ c = '\x7d'

theorem ends_nil : Ends [] := nofun

theorem ends_cons (h : c = ',' ∨ c = ']' ∨ c = '\x7d') (rest : List Char) : Ends (c :: rest) := by
  intro d hd
  rwa [← Option.some.inj hd]

theorem skipBlanks_cons (h : isBlank c = false) (cs : List Char) :
    skipBlanks (c :: cs) = c :: cs := by
  rw [skipBlanks, List.dropWhile_cons, h]
  rfl

/-! ### Strings -/

/-- A character is written as a letter after a backslash, as a unit of UTF-16, or as itself. -/
theorem escape_cases (c : Char) :
    (∃ l, escape c = ['\\', l] ∧ escaped? l = some c) ∨
    (c.toNat < 32 ∧
      escape c = ['\\', 'u', '0', '0', hexDigit (c.toNat / 16), hexDigit (c.toNat % 16)]) ∨
    (c ≠ '"' ∧ c ≠ '\\' ∧ ¬ c.toNat < 32 ∧ escape c = [c]) := by
  by_cases hletter : c ∈ ['"', '\\', '\x08', '\t', '\n', '\x0c', '\r']
  · refine .inl ?_
    simp only [List.mem_cons, List.not_mem_nil, or_false] at hletter
    rcases hletter with rfl | rfl | rfl | rfl | rfl | rfl | rfl <;> exact ⟨_, rfl, rfl⟩
  · refine .inr ?_
    simp only [List.mem_cons, List.not_mem_nil, or_false, not_or] at hletter
    obtain ⟨hquote, hslash, hb, ht, hn, hf, hr⟩ := hletter
    by_cases hc : c.toNat < 32
    · refine .inl ⟨hc, ?_⟩
      rw [escape, if_neg hquote, if_neg hslash, if_neg hb, if_neg ht, if_neg hn, if_neg hf,
        if_neg hr, if_pos hc]
    · refine .inr ⟨hquote, hslash, hc, ?_⟩
      rw [escape, if_neg hquote, if_neg hslash, if_neg hb, if_neg ht, if_neg hn, if_neg hf,
        if_neg hr, if_neg hc]

theorem hexUnit?_hexDigit :
    ∀ n < 32, hexUnit? '0' '0' (hexDigit (n / 16)) (hexDigit (n % 16)) = some n := by
  decide

theorem pieces?_letter {l : Char} (h : pieces? cs = some (ps, rest)) (hl : escaped? l = some c) :
    pieces? ('\\' :: l :: cs) = some (.char c :: ps, rest) := by
  have hu : l ≠ 'u' := by
    rintro rfl
    cases hl
  rw [pieces?, hl, h]
  intro _ _ _ _ _ hletter
  exact absurd hletter hu

theorem pieces?_char (h : pieces? cs = some (ps, rest)) (hquote : c ≠ '"') (hslash : c ≠ '\\')
    (hc : ¬ c.toNat < 32) : pieces? (c :: cs) = some (.char c :: ps, rest) := by
  rw [pieces?, if_neg hc, h]
  · exact hquote
  · intro _ _ _ _ _ hbackslash
    exact absurd hbackslash hslash
  · intro _ _ hbackslash
    exact absurd hbackslash hslash

theorem joinPieces?_unit {n : Nat} (hn : n < 32) (ps : List Piece) :
    joinPieces? (.unit n :: ps) = (joinPieces? ps).map (Char.ofNat n :: ·) := by
  have hhigh : isHighSurrogate n = false := by
    simp only [isHighSurrogate, Bool.and_eq_false_iff, decide_eq_false_iff_not]
    omega
  have hlow : isLowSurrogate n = false := by
    simp only [isLowSurrogate, Bool.and_eq_false_iff, decide_eq_false_iff_not]
    omega
  rw [joinPieces?.eq_def]
  simp only [hhigh, hlow, Bool.false_eq_true, if_false]

/-- A character is written as one piece of a literal, and the piece stands for the character. -/
theorem exists_piece (c : Char) (h : pieces? cs = some (ps, rest)) :
    ∃ p, pieces? (escape c ++ cs) = some (p :: ps, rest) ∧
      joinPieces? (p :: ps) = (joinPieces? ps).map (c :: ·) := by
  rcases escape_cases c with ⟨l, hescape, hl⟩ | ⟨hc, hescape⟩ | ⟨hquote, hslash, hc, hescape⟩
  · rw [hescape]
    exact ⟨.char c, pieces?_letter h hl, rfl⟩
  · refine ⟨.unit c.toNat, ?_, ?_⟩
    · rw [hescape]
      show pieces? ('\\' :: 'u' :: '0' :: '0' :: _ :: _ :: cs) = _
      rw [pieces?, hexUnit?_hexDigit c.toNat hc, h]
    · rw [joinPieces?_unit hc, Char.ofNat_toNat]
  · rw [hescape]
    exact ⟨.char c, pieces?_char h hquote hslash hc, rfl⟩

/-- The text of a literal is read up to its closing quote. -/
theorem string?_quote (text : String) (rest : List Char) :
    string? (text.toList.flatMap escape ++ '"' :: rest) = some (some text, rest) := by
  have hpieces : ∀ cs : List Char, ∃ ps,
      pieces? (cs.flatMap escape ++ '"' :: rest) = some (ps, rest) ∧ joinPieces? ps = some cs := by
    intro cs
    induction cs with
    | nil => exact ⟨[], rfl, rfl⟩
    | cons c cs ih =>
      obtain ⟨ps, hps, hjoin⟩ := ih
      obtain ⟨p, hpiece, hjoined⟩ := exists_piece c hps
      refine ⟨p :: ps, ?_, ?_⟩
      · rwa [List.flatMap_cons, List.append_assoc]
      · rw [hjoined, hjoin, Option.map_some]
  obtain ⟨ps, hps, hjoin⟩ := hpieces text.toList
  rw [string?, hps]
  show some ((joinPieces? ps).map String.ofList, rest) = _
  rw [hjoin, Option.map_some, String.ofList_toList]

/-! ### Numbers -/

theorem exists_head_toDigits (n : Nat) :
    ∃ d ds, Nat.toDigits 10 n = d :: ds ∧ d.isDigit = true := by
  obtain ⟨d, ds, hds⟩ := List.exists_cons_of_ne_nil (Nat.toDigits_ne_nil (n := n) (b := 10))
  have hmem : d ∈ Nat.toDigits 10 n := by
    rw [hds]
    exact List.mem_cons_self
  exact ⟨d, ds, hds, Nat.isDigit_of_mem_toDigits (by decide) (by decide) hmem⟩

theorem eq_zero_of_digitChar : ∀ n < 10, Nat.digitChar n = '0' → n = 0 := by decide

theorem eq_zero_of_head_toDigits {n : Nat} (h : (Nat.toDigits 10 n).head? = some '0') : n = 0 := by
  induction n using Nat.strongRecOn with
  | ind n ih =>
    by_cases hn : n < 10
    · rw [Nat.toDigits_of_lt_base hn] at h
      exact eq_zero_of_digitChar n hn (Option.some.inj h)
    · -- the first digit is that of the number without its last digit, which is not zero
      rw [Nat.toDigits_of_base_le (by decide) (Nat.not_lt.mp hn)] at h
      obtain ⟨d, ds, hds, -⟩ := exists_head_toDigits (n / 10)
      rw [hds] at h
      have hzero := ih (n / 10) (by omega) (by rw [hds]; exact h)
      omega

theorem digitsValue_toDigits (n : Nat) : digitsValue (Nat.toDigits 10 n) = n := by
  have hstep : (fun n (c : Char) => n * 10 + (c.toNat - '0'.toNat)) =
      fun n c => 10 * n + (c.toNat - '0'.toNat) := by
    funext n c
    rw [Nat.mul_comm]
  rw [digitsValue, hstep]
  exact Nat.ofDigitChars_toDigits (by decide) (by decide)

theorem digits?_toDigits (n : Nat) (h : Ends rest) :
    digits? (Nat.toDigits 10 n ++ rest) = some (Nat.toDigits 10 n, rest) := by
  have hdigits : ∀ c ∈ Nat.toDigits 10 n, c.isDigit = true :=
    fun c hc => Nat.isDigit_of_mem_toDigits (by decide) (by decide) hc
  have hend : ∀ c ∈ rest.head?, c.isDigit = false := by
    intro c hc
    rcases h c hc with rfl | rfl | rfl <;> decide
  have htake : (Nat.toDigits 10 n ++ rest).takeWhile Char.isDigit = Nat.toDigits 10 n := by
    rw [takeWhile_append_of_head hend]
    exact List.takeWhile_eq_self_iff.mpr hdigits
  have hdrop : (Nat.toDigits 10 n ++ rest).dropWhile Char.isDigit = rest := by
    rw [dropWhile_append_of_head hend, List.dropWhile_eq_nil_iff.mpr hdigits, List.nil_append]
  have hne : (Nat.toDigits 10 n).isEmpty = false := List.isEmpty_eq_false_iff.mpr Nat.toDigits_ne_nil
  simp only [digits?, htake, hdrop, hne, Bool.false_eq_true, if_false]

theorem fraction?_of_ends (h : Ends rest) : fraction? rest = some ([], rest) := by
  cases rest with
  | nil => rfl
  | cons c rest => rcases h c rfl with rfl | rfl | rfl <;> rfl

theorem exponent?_of_ends (h : Ends rest) : exponent? rest = some ([], rest) := by
  cases rest with
  | nil => rfl
  | cons c rest => rcases h c rfl with rfl | rfl | rfl <;> rfl

theorem unsigned?_toDigits (n : Nat) (h : Ends rest) :
    unsigned? (Nat.toDigits 10 n ++ rest) = some ((Nat.toDigits 10 n, []), rest) := by
  have hzeros : ¬ ((Nat.toDigits 10 n).head? = some '0' ∧ Nat.toDigits 10 n ≠ ['0']) := by
    rintro ⟨hhead, hne⟩
    rw [eq_zero_of_head_toDigits hhead] at hne
    exact hne rfl
  simp only [unsigned?, digits?_toDigits n h, Option.bind_eq_bind, Option.bind_some, if_neg hzeros,
    fraction?_of_ends h, exponent?_of_ends h]
  rfl

/-- The digits of a number are read as this number. -/
theorem number?_toDigits (n : Nat) (h : Ends rest) :
    number? (Nat.toDigits 10 n ++ rest) = some (.natural n, rest) := by
  obtain ⟨d, ds, hds, hdigit⟩ := exists_head_toDigits n
  have hsign : ∀ tail, d :: (ds ++ rest) = '-' :: tail → False := by
    intro tail htail
    rw [(List.cons.inj htail).1] at hdigit
    exact absurd hdigit (by decide)
  have hunsigned := unsigned?_toDigits n h
  rw [hds, List.cons_append] at hunsigned ⊢
  rw [number?, hunsigned, Option.map_some]
  · show some (Json.natural (digitsValue (d :: ds)), rest) = _
    rw [← hds, digitsValue_toDigits]
  · exact hsign

/-! ### Brackets -/

section Brackets

variable {α β : Type} {member : List Char → Option (α × List Char)} {closer : Char}
  {text : β → List Char} {result : β → α} {xs : List β}

/-- Members with commas between them are read one by one. -/
theorem members?_intercalate (hcloser : closer = ']' ∨ closer = '\x7d') (hne : xs ≠ [])
    {bound : Nat} (hbound : xs.length ≤ bound)
    (h : ∀ x ∈ xs, ∀ rest, Ends rest → member (text x ++ rest) = some (result x, rest)) :
    members? member closer bound ([','].intercalate (xs.map text) ++ closer :: rest) =
      some (xs.map result, rest) := by
  induction xs generalizing bound with
  | nil => exact absurd rfl hne
  | cons x xs ih =>
    obtain ⟨bound, rfl⟩ : ∃ b, bound = b + 1 := Nat.exists_eq_succ_of_ne_zero (by
      rw [List.length_cons] at hbound
      omega)
    have hx := h x List.mem_cons_self
    have hblank : isBlank closer = false := by rcases hcloser with rfl | rfl <;> rfl
    have hcomma : ¬ ',' = closer := by rcases hcloser with rfl | rfl <;> decide
    cases xs with
    | nil =>
      rw [List.map_singleton, List.intercalate_singleton, members?,
        hx _ (ends_cons (.inr hcloser) rest)]
      simp only [skipBlanks_cons hblank, if_true]
      rfl
    | cons y ys =>
      have hlength : (y :: ys).length ≤ bound := Nat.le_of_succ_le_succ hbound
      have hrest := ih (List.cons_ne_nil y ys) hlength fun z hz => h z (List.mem_cons_of_mem x hz)
      rw [List.map_cons, List.map_cons, List.intercalate_cons_cons, List.append_assoc,
        List.append_assoc, List.singleton_append, members?, hx _ (ends_cons (.inl rfl) _)]
      simp only [skipBlanks_cons (show isBlank ',' = false by rfl), hcomma, if_true, if_false]
      rw [← List.map_cons, hrest]
      rfl

/-- All members are read up to the closing bracket. -/
theorem block?_intercalate (hcloser : closer = ']' ∨ closer = '\x7d')
    {bound : Nat} (hbound : xs.length ≤ bound)
    (hstart : ∀ x ∈ xs, ∃ c cs, text x = c :: cs ∧ isBlank c = false ∧ c ≠ closer)
    (h : ∀ x ∈ xs, ∀ rest, Ends rest → member (text x ++ rest) = some (result x, rest)) :
    block? member closer bound ([','].intercalate (xs.map text) ++ closer :: rest) =
      some (xs.map result, rest) := by
  cases xs with
  | nil =>
    have hblank : isBlank closer = false := by rcases hcloser with rfl | rfl <;> rfl
    show block? member closer bound (closer :: rest) = _
    rw [block?, skipBlanks_cons hblank]
    exact if_pos rfl
  | cons x xs =>
    have hmembers :
        members? member closer bound ([','].intercalate ((x :: xs).map text) ++ closer :: rest) =
          some ((x :: xs).map result, rest) :=
      members?_intercalate hcloser (List.cons_ne_nil x xs) hbound h
    obtain ⟨c, cs, htext, hblank, hc⟩ := hstart x List.mem_cons_self
    -- the text of the first member starts the block
    obtain ⟨tail, htail⟩ : ∃ tail,
        [','].intercalate ((x :: xs).map text) ++ closer :: rest = c :: tail := by
      cases xs with
      | nil => exact ⟨_, by rw [List.map_singleton, List.intercalate_singleton, htext]; rfl⟩
      | cons y ys =>
        exact ⟨_, by rw [List.map_cons, List.map_cons, List.intercalate_cons_cons, htext]; rfl⟩
    rw [htail] at hmembers ⊢
    rw [block?, skipBlanks_cons hblank]
    show (if c = closer then _ else _) = _
    rw [if_neg hc, hmembers]

end Brackets

/-- No part of a text is longer than the text. -/
theorem length_le_intercalate {texts : List (List Char)} {t : List Char} (h : t ∈ texts) :
    t.length ≤ ([','].intercalate texts).length := by
  induction texts with
  | nil => cases h
  | cons u texts ih =>
    cases texts with
    | nil =>
      refine Nat.le_of_eq ?_
      rw [List.mem_singleton.mp h, List.intercalate_singleton]
    | cons w texts =>
      rw [List.intercalate_cons_cons, List.length_append, List.length_append]
      rcases List.mem_cons.mp h with rfl | hrest
      · omega
      · have hle := ih hrest
        omega

/-- There is a comma after every part but the last one. -/
theorem count_le_intercalate (texts : List (List Char)) :
    texts.length ≤ ([','].intercalate texts).length + 1 := by
  induction texts with
  | nil => exact Nat.zero_le _
  | cons u texts ih =>
    cases texts with
    | nil => exact Nat.le_add_left 1 _
    | cons w texts =>
      rw [List.intercalate_cons_cons, List.length_append, List.length_append, List.length_cons,
        List.length_singleton]
      omega

/-! ### Values -/

theorem toList_quote (text : String) :
    (quote text).toList = '"' :: (text.toList.flatMap escape ++ ['"']) := by
  rw [quote, String.toList_ofList]
  rfl

theorem printItems_eq (items : List Json) : printItems items = items.map print := by
  induction items with
  | nil => rfl
  | cons v vs ih => rw [printItems, ih, List.map_cons]

theorem printMembers_eq (members : List (String × Json)) :
    printMembers members = members.map fun m => quote m.1 ++ ":" ++ m.2.print := by
  induction members with
  | nil => rfl
  | cons m ms ih => rw [printMembers, ih, List.map_cons]

/-- The characters of a member of an object. -/
def memberText (m : String × Json) : List Char :=
  (quote m.1).toList ++ ':' :: m.2.print.toList

theorem toList_print_natural (n : Nat) : (Json.natural n).print.toList = Nat.toDigits 10 n := by
  rw [print, Nat.toString_eq_ofList_toDigits, String.toList_ofList]

theorem toList_print_array (items : List Json) :
    (Json.array items).print.toList =
      '[' :: ([','].intercalate (items.map fun v => v.print.toList) ++ [']']) := by
  rw [print, printItems_eq, String.toList_append, String.toList_append, String.toList_intercalate,
    List.map_map, List.append_assoc]
  rfl

theorem toList_print_object (members : List (String × Json)) :
    (Json.object members).print.toList =
      '\x7b' :: ([','].intercalate (members.map memberText) ++ ['\x7d']) := by
  have hmember : (String.toList ∘ fun m : String × Json => quote m.1 ++ ":" ++ m.2.print) =
      memberText := by
    funext m
    rw [memberText, Function.comp_apply, String.toList_append, String.toList_append,
      List.append_assoc]
    rfl
  rw [print, printMembers_eq, String.toList_append, String.toList_append, String.toList_intercalate,
    List.map_map, List.append_assoc, hmember]
  rfl

theorem isBlank_of_isDigit (h : c.isDigit = true) : isBlank c = false := by
  cases hblank : isBlank c with
  | false => rfl
  | true =>
    simp only [isBlank, Bool.or_eq_true, beq_iff_eq] at hblank
    rcases hblank with ((rfl | rfl) | rfl) | rfl <;> exact absurd h (by decide)

/-- A value that starts with a digit is a number. -/
theorem value?_of_isDigit (h : c.isDigit = true) (depth : Nat) (cs : List Char) :
    value? (depth + 1) (c :: cs) = number? (c :: cs) := by
  rw [value?, skipBlanks_cons (isBlank_of_isDigit h)]
  split
  case h_7 => rfl
  all_goals
    rename_i hcs
    rw [(List.cons.inj hcs).1] at h
    exact absurd h (by decide)

/-- A value starts with neither a blank nor a closing bracket. -/
theorem exists_head_print (v : Json) (h : v.isPlain = true) :
    ∃ c cs, v.print.toList = c :: cs ∧ isBlank c = false ∧ c ≠ ']' := by
  cases v with
  | null => exact ⟨'n', _, rfl, rfl, by decide⟩
  | bool b => cases b <;> exact ⟨_, _, rfl, rfl, by decide⟩
  | natural n =>
    obtain ⟨d, ds, hds, hdigit⟩ := exists_head_toDigits n
    refine ⟨d, ds, by rw [toList_print_natural, hds], isBlank_of_isDigit hdigit, ?_⟩
    rintro rfl
    exact absurd hdigit (by decide)
  | number literal => cases h
  | string text => exact ⟨'"', _, toList_quote text, rfl, by decide⟩
  | array items => exact ⟨'[', _, toList_print_array items, rfl, by decide⟩
  | object members => exact ⟨'\x7b', _, toList_print_object members, rfl, by decide⟩
  | unread => cases h

/-- A member of an object is read if its value is. -/
theorem pair?_memberText {value : List Char → Option (Json × List Char)} {m : String × Json}
    (h : value (m.2.print.toList ++ rest) = some (m.2, rest)) :
    pair? value (memberText m ++ rest) = some ((some m.1, m.2), rest) := by
  have htext : memberText m ++ rest =
      '"' :: (m.1.toList.flatMap escape ++ '"' :: ':' :: (m.2.print.toList ++ rest)) := by
    rw [memberText, toList_quote]
    simp only [List.cons_append, List.append_assoc, List.nil_append]
  rw [htext, pair?]
  simp only [skipBlanks_cons (c := '"') rfl, string?_quote, skipBlanks_cons (c := ':') rfl, h,
    Option.map_some]

theorem ofPairs_some (members : List (String × Json)) :
    ofPairs (members.map fun m => (some m.1, m.2)) = .object members := by
  have hnames : (members.map fun m => (some m.1, m.2)).mapM
      (fun p : Option String × Json => p.1.map (·, p.2)) = some members := by
    induction members with
    | nil => rfl
    | cons m ms ih =>
      rw [List.map_cons, List.mapM_cons, ih]
      rfl
  rw [ofPairs]
  split
  · rename_i found hfound
    rw [Option.some.inj (hfound.symm.trans hnames)]
  · rename_i hfound
    cases hfound.symm.trans hnames

theorem value?_array {depth : Nat} {items : List Json} (hcount : items.length ≤ depth)
    (hplain : ∀ v ∈ items, v.isPlain = true)
    (h : ∀ v ∈ items, ∀ rest, Ends rest → value? depth (v.print.toList ++ rest) = some (v, rest)) :
    value? (depth + 1) ((Json.array items).print.toList ++ rest) = some (.array items, rest) := by
  have hblock : block? (value? depth) ']' depth
      ([','].intercalate (items.map fun v => v.print.toList) ++ ']' :: rest) =
        some (items.map id, rest) :=
    block?_intercalate (.inl rfl) hcount (fun v hv => exists_head_print v (hplain v hv)) h
  rw [toList_print_array, List.cons_append, List.append_assoc, List.singleton_append, value?,
    skipBlanks_cons rfl]
  show (block? (value? depth) ']' depth _).map _ = _
  rw [hblock, List.map_id]
  rfl

theorem value?_object {depth : Nat} {members : List (String × Json)}
    (hcount : members.length ≤ depth)
    (h : ∀ m ∈ members, ∀ rest, Ends rest →
      value? depth (m.2.print.toList ++ rest) = some (m.2, rest)) :
    value? (depth + 1) ((Json.object members).print.toList ++ rest) =
      some (.object members, rest) := by
  have hstart : ∀ m ∈ members, ∃ c cs, memberText m = c :: cs ∧ isBlank c = false ∧ c ≠ '\x7d' := by
    intro m _
    refine ⟨'"', m.1.toList.flatMap escape ++ ['"'] ++ ':' :: m.2.print.toList, ?_, rfl, by decide⟩
    rw [memberText, toList_quote, List.cons_append]
  have hblock : block? (pair? (value? depth)) '\x7d' depth
      ([','].intercalate (members.map memberText) ++ '\x7d' :: rest) =
        some (members.map fun m => (some m.1, m.2), rest) :=
    block?_intercalate (.inr rfl) hcount hstart fun m hm rest hrest =>
      pair?_memberText (h m hm rest hrest)
  rw [toList_print_object, List.cons_append, List.append_assoc, List.singleton_append, value?,
    skipBlanks_cons rfl]
  show (block? (pair? (value? depth)) '\x7d' depth _).map _ = _
  rw [hblock]
  show some (ofPairs (members.map fun m => (some m.1, m.2)), rest) = _
  rw [ofPairs_some]

/-- The text of a plain value is read as this value, if the bound is not below its length. -/
theorem value?_print {depth : Nat} {v : Json} (hplain : v.isPlain = true)
    (hdepth : v.print.toList.length ≤ depth) (hrest : Ends rest) :
    value? depth (v.print.toList ++ rest) = some (v, rest) := by
  -- the reader descends with the bound, so the induction is on it and not on the value
  induction depth generalizing v rest with
  | zero =>
    obtain ⟨c, cs, hcs, -, -⟩ := exists_head_print v hplain
    rw [hcs] at hdepth
    cases hdepth
  | succ depth ih =>
    cases v with
    | null => rfl
    | bool b => cases b <;> rfl
    | natural n =>
      obtain ⟨d, ds, hds, hdigit⟩ := exists_head_toDigits n
      have hnumber := number?_toDigits n hrest
      rw [toList_print_natural]
      rw [hds, List.cons_append] at hnumber ⊢
      rw [value?_of_isDigit hdigit, hnumber]
    | number literal => cases hplain
    | string text =>
      have htext : (Json.string text).print.toList ++ rest =
          '"' :: (text.toList.flatMap escape ++ '"' :: rest) := by
        rw [print, toList_quote, List.cons_append, List.append_assoc, List.singleton_append]
      rw [htext, value?, skipBlanks_cons rfl]
      show (string? (text.toList.flatMap escape ++ '"' :: rest)).map _ = _
      rw [string?_quote]
      rfl
    | array items =>
      rw [isPlain, arePlainItems_iff] at hplain
      rw [toList_print_array, List.length_cons, List.length_append, List.length_singleton] at hdepth
      have hcount := count_le_intercalate (items.map fun v => v.print.toList)
      rw [List.length_map] at hcount
      refine value?_array (by omega) hplain ?_
      intro v hv rest hrest
      have hlength := length_le_intercalate
        (List.mem_map_of_mem (f := fun v : Json => v.print.toList) hv)
      exact ih (hplain v hv) (by omega) hrest
    | object members =>
      rw [isPlain, arePlainMembers_iff] at hplain
      rw [toList_print_object, List.length_cons, List.length_append, List.length_singleton] at hdepth
      have hcount := count_le_intercalate (members.map memberText)
      rw [List.length_map] at hcount
      refine value?_object (by omega) ?_
      intro m hm rest hrest
      have hlength := length_le_intercalate (List.mem_map_of_mem (f := memberText) hm)
      rw [memberText, List.length_append, List.length_cons] at hlength
      exact ih (hplain m hm) (by omega) hrest
    | unread => cases hplain

/-- **Plain values are read back from their text.** -/
theorem parse?_print {v : Json} (h : v.isPlain = true) : parse? v.print = some v := by
  have hvalue := value?_print h (Nat.le_succ _) ends_nil
  rw [List.append_nil] at hvalue
  rw [parse?]
  simp only [hvalue]
  rfl

end NaturalDeduction.Json
