import Mathlib.Data.List.TakeWhile
import NaturalDeduction.Token.Scan

/-! # Where tokens end

    How far a token reaches depends on its first character and on the
    characters after it. Text is therefore cut at the same places as it was
    written only if each piece of it is one token where it stands, with what
    comes next.

    * **Pieces**: `Cuts w rest` says that `w` is one token where `rest` comes
      next. Then the tokens of the text are that token and the tokens of `rest`
      (`scanFrom_append`).
    * **What comes next**: names and runs of signs end before anything else
      (`Stops`); a single other character and a name with a colon end whatever
      comes next; a sign of negation ends before all that is no sign, and before
      another sign of negation.
    * **Tokens of a text**: each of them is a piece of its own again. It is an
      operator or a turnstile only if it is a spelling of the language.
-/

namespace NaturalDeduction

variable {c d : Char} {cs w run tail rest : List Char}

/-! ### Classes of characters -/

theorem not_of_isBlank (h : isBlank c = true) : isNameChar c = false ∧ isSign c = false := by
  simp only [isBlank, Bool.or_eq_true, beq_iff_eq] at h
  rcases h with ((rfl | rfl) | rfl) | rfl <;> exact ⟨by decide, by decide⟩

theorem isBlank_of_isNameChar (h : isNameChar c = true) : isBlank c = false := by
  cases hblank : isBlank c with
  | false => rfl
  | true => simp [not_of_isBlank hblank] at h

theorem isBlank_of_isSign (h : isSign c = true) : isBlank c = false := by
  cases hblank : isBlank c with
  | false => rfl
  | true => simp [not_of_isBlank hblank] at h

theorem isSign_of_isNegation (h : isNegation c = true) : isSign c = true := by
  simp only [isNegation, Bool.or_eq_true, beq_iff_eq] at h
  rcases h with rfl | rfl <;> decide

theorem isNameChar_of_isSign (h : isSign c = true) : isNameChar c = false := by
  have hmem : c ∈ "@#$%^&*_=\\|~:<>/?!+-".toList := by simpa [isSign] using h
  have hall : ("@#$%^&*_=\\|~:<>/?!+-".toList.all fun d => !isNameChar d) = true := by decide
  simpa using List.all_eq_true.mp hall c hmem

/-! ### Runs that end where the next part begins -/

theorem takeWhile_append_of_head {p : Char → Bool} (h : ∀ c ∈ rest.head?, p c = false) :
    (tail ++ rest).takeWhile p = tail.takeWhile p := by
  induction tail with
  | nil =>
    cases rest with
    | nil => rfl
    | cons c rest => simp [h c rfl]
  | cons d tail ih =>
    by_cases hd : p d = true
    · simp [hd, ih]
    · simp [hd]

theorem dropWhile_append_of_head {p : Char → Bool} (h : ∀ c ∈ rest.head?, p c = false) :
    (tail ++ rest).dropWhile p = tail.dropWhile p ++ rest := by
  induction tail with
  | nil =>
    cases rest with
    | nil => rfl
    | cons c rest => simp [h c rfl]
  | cons d tail ih =>
    by_cases hd : p d = true
    · simp [hd, ih]
    · simp [hd]

/-- What comes next goes on with no name and with no run of signs. -/
def Stops (rest : List Char) : Prop :=
  ∀ c ∈ rest.head?, isNameChar c = false ∧ isSign c = false

/-- What comes next and stops a token does not matter to the token. -/
theorem tokenTail_append (h : Stops rest) : tokenTail c (tail ++ rest) = tokenTail c tail := by
  have hname : ∀ c ∈ rest.head?, isNameChar c = false := fun c hc => (h c hc).1
  have hsign : ∀ c ∈ rest.head?, isSign c = false := fun c hc => (h c hc).2
  have hcolon : (tail.dropWhile isNameChar ++ rest).head? = some ':' ↔
      (tail.dropWhile isNameChar).head? = some ':' := by
    cases tail.dropWhile isNameChar with
    | cons d ds => simp
    | nil =>
      -- a colon is a sign, so that it does not stop
      simp only [List.nil_append, List.head?_nil, reduceCtorEq, iff_false]
      intro hhead
      exact absurd (hsign ':' hhead) (by decide)
  have hnegation : (tail ++ rest).head?.any isNegation = tail.head?.any isNegation := by
    cases tail with
    | cons d ds => simp
    | nil =>
      cases hhead : rest.head? with
      | none => simp [hhead]
      | some d =>
        by_cases hd : isNegation d = true
        · exact absurd (isSign_of_isNegation hd) (by simp [hsign d hhead])
        · simp [hhead, hd]
  simp only [tokenTail, takeWhile_append_of_head hname, dropWhile_append_of_head hname,
    takeWhile_append_of_head hsign, hcolon, hnegation]

/-! ### Pieces that are one token -/

/-- The characters are one token where `rest` comes next. -/
def Cuts : List Char → List Char → Prop
  | [], _ => False
  | c :: tail, rest => isBlank c = false ∧ tokenTail c (tail ++ rest) = tail

instance : (w rest : List Char) → Decidable (Cuts w rest)
  | [], _ => inferInstanceAs (Decidable False)
  | c :: tail, rest =>
    inferInstanceAs (Decidable (isBlank c = false ∧ tokenTail c (tail ++ rest) = tail))

theorem Cuts.ne_nil (h : Cuts w rest) : w ≠ [] := by
  rintro rfl
  exact h

/-- What is one token at the end of a text is one token before anything that stops it. -/
theorem Cuts.of_stops (h : Cuts w []) (hrest : Stops rest) : Cuts w rest := by
  match w, h with
  | c :: tail, h =>
    refine ⟨h.1, ?_⟩
    rw [tokenTail_append hrest]
    simpa using h.2

theorem tokenTail_eq_nil (hname : isNameChar c = false) (hsign : isSign c = false)
    (cs : List Char) : tokenTail c cs = [] := by
  have hnegation : isNegation c = false := by
    cases h : isNegation c with
    | false => rfl
    | true => simp [isSign_of_isNegation h] at hsign
  simp [tokenTail, hname, hsign, hnegation]

/-- A character that is part of no name and no run of signs stands alone. -/
theorem cuts_glyph (hblank : isBlank c = false) (hname : isNameChar c = false)
    (hsign : isSign c = false) (rest : List Char) : Cuts [c] rest :=
  ⟨hblank, tokenTail_eq_nil hname hsign rest⟩

/-- A name takes no more than one colon. -/
theorem cuts_name_colon (hc : isNameChar c = true) (hrun : ∀ d ∈ run, isNameChar d = true)
    (rest : List Char) : Cuts (c :: (run ++ [':'])) rest := by
  refine ⟨isBlank_of_isNameChar hc, ?_⟩
  have htake : (run ++ ':' :: rest).takeWhile isNameChar = run := by
    rw [List.takeWhile_append_of_pos hrun]
    simp [show isNameChar ':' = false by decide]
  have hdrop : (run ++ ':' :: rest).dropWhile isNameChar = ':' :: rest := by
    rw [List.dropWhile_append_of_pos hrun]
    simp [show isNameChar ':' = false by decide]
  rw [List.append_assoc]
  show tokenTail c (run ++ ':' :: rest) = run ++ [':']
  simp [tokenTail, hc, htake, hdrop]

/-- A name without a colon ends before all that is neither part of it nor a colon. -/
theorem cuts_name (hc : isNameChar c = true) (hrun : ∀ d ∈ run, isNameChar d = true)
    (hrest : ∀ d ∈ rest.head?, isNameChar d = false ∧ d ≠ ':') : Cuts (c :: run) rest := by
  refine ⟨isBlank_of_isNameChar hc, ?_⟩
  have hend : ∀ d ∈ rest.head?, isNameChar d = false := fun d hd => (hrest d hd).1
  have htake : (run ++ rest).takeWhile isNameChar = run := by
    rw [takeWhile_append_of_head hend]
    exact List.takeWhile_eq_self_iff.mpr hrun
  have hdrop : (run ++ rest).dropWhile isNameChar = rest := by
    rw [dropWhile_append_of_head hend, List.dropWhile_eq_nil_iff.mpr hrun, List.nil_append]
  have hcolon : rest.head? ≠ some ':' := fun hhead => (hrest ':' hhead).2 rfl
  simp [tokenTail, hc, htake, hdrop, hcolon]

/-- A sign of negation stands alone before another one, and before all that is no sign. -/
theorem cuts_negation (hc : isNegation c = true)
    (hrest : ∀ d ∈ rest.head?, isSign d = true → isNegation d = true) : Cuts [c] rest := by
  have hsign := isSign_of_isNegation hc
  refine ⟨isBlank_of_isSign hsign, ?_⟩
  show tokenTail c rest = []
  cases rest with
  | nil => simp [tokenTail, isNameChar_of_isSign hsign]
  | cons d rest =>
    by_cases hd : isNegation d = true
    · simp [tokenTail, isNameChar_of_isSign hsign, hc, hd]
    · have hnot : isSign d = false := by
        cases h : isSign d with
        | false => rfl
        | true => exact absurd (hrest d rfl h) hd
      simp [tokenTail, isNameChar_of_isSign hsign, hsign, hd, hnot]

/-- A run of signs takes up a sign of negation before it, unless it starts with one itself. -/
theorem cuts_glued (hc : isNegation c = true) (hd : isSign d = true) (hd' : isNegation d = false)
    (h : Cuts (d :: tail) []) : Cuts (c :: d :: tail) [] := by
  have htail : tail.takeWhile isSign = tail := by
    simpa [tokenTail, isNameChar_of_isSign hd, hd, hd'] using h.2
  have hsign := isSign_of_isNegation hc
  refine ⟨isBlank_of_isSign hsign, ?_⟩
  simp [tokenTail, isNameChar_of_isSign hsign, hsign, hd, hd', htail]

/-! ### Tokens of a text -/

/-- The kind of a token with a text. -/
def Language.kindOf (lang : Language) : List Char → TokenKind
  | [] => .eof
  | c :: tail => lang.tokenKind c (String.ofList (c :: tail))

/-- The token with a text at a place. -/
def Language.token (lang : Language) (text : List Char) (p : Position) : Token :=
  ⟨lang.kindOf text, String.ofList text, p⟩

variable {lang : Language} {p : Position}

theorem scanFrom_skip (w rest : List Char) (p : Position) :
    lang.scanFrom w.length p (w ++ rest) = lang.scanFrom 0 (p.after w) rest := by
  induction w generalizing p with
  | nil => rfl
  | cons c w ih => exact ih (p.advance c)

/-- The tokens of a text that starts with one token. -/
theorem scanFrom_append (h : Cuts w rest) (p : Position) :
    lang.scanFrom 0 p (w ++ rest) = lang.token w p :: lang.scanFrom 0 (p.after w) rest := by
  match w, h with
  | c :: tail, h =>
    show lang.scanFrom 0 p (c :: (tail ++ rest)) = _
    simp only [Language.scanFrom, h.1, h.2, Bool.false_eq_true, if_false]
    rw [scanFrom_skip]
    rfl

@[simp] theorem scanFrom_blank (rest : List Char) (p : Position) :
    lang.scanFrom 0 p (' ' :: rest) = lang.scanFrom 0 (p.advance ' ') rest := by
  simp [Language.scanFrom, show isBlank ' ' = true by decide]

/-- Blanks before the first token are passed over. -/
theorem scanFrom_gap {gap : List Char} (hgap : ∀ c ∈ gap, isBlank c = true) (rest : List Char)
    (p : Position) : lang.scanFrom 0 p (gap ++ rest) = lang.scanFrom 0 (p.after gap) rest := by
  induction gap generalizing p with
  | nil => rfl
  | cons c gap ih =>
    have hc : isBlank c = true := hgap c List.mem_cons_self
    have hscan : lang.scanFrom 0 p (c :: gap ++ rest) =
        lang.scanFrom 0 (p.advance c) (gap ++ rest) := by
      simp [Language.scanFrom, hc]
    rw [hscan]
    exact ih (fun d hd => hgap d (List.mem_cons_of_mem c hd)) (p.advance c)

/-- The reach of a token is that of a piece of its own. -/
theorem cuts_tokenTail (hc : isBlank c = false) : Cuts (c :: tokenTail c cs) [] := by
  refine ⟨hc, ?_⟩
  rw [List.append_nil]
  by_cases hname : isNameChar c = true
  · have hrun : ∀ d ∈ cs.takeWhile isNameChar, isNameChar d = true :=
      fun d hd => List.mem_takeWhile_imp hd
    by_cases hcolon : (cs.dropWhile isNameChar).head? = some ':'
    · have hcut := (cuts_name_colon hname hrun []).2
      simpa [tokenTail, hname, hcolon] using hcut
    · have hcut : Cuts (c :: cs.takeWhile isNameChar) [] := cuts_name hname hrun (by simp)
      simpa [tokenTail, hname, hcolon] using hcut.2
  · by_cases hdouble : (isNegation c && cs.head?.any isNegation) = true
    · -- a sign of negation before another one is a token alone
      simp [tokenTail, hname, hdouble]
    · by_cases hsign : isSign c = true
      · have hrun : (cs.takeWhile isSign).takeWhile isSign = cs.takeWhile isSign :=
          List.takeWhile_eq_self_iff.mpr fun d hd => List.mem_takeWhile_imp hd
        -- the run starts with what came next, if it is not empty
        have hdouble' : (isNegation c && (cs.takeWhile isSign).head?.any isNegation) = false := by
          cases cs with
          | nil => simp
          | cons d cs =>
            by_cases hd : isSign d = true
            · simpa [hd] using hdouble
            · simp [hd]
        simp [tokenTail, hname, hdouble, hdouble', hsign, hrun]
      · simp [tokenTail, hname, hdouble, hsign]

theorem exists_of_mem_scanFrom {t : Token} {skip : Nat} (h : t ∈ lang.scanFrom skip p cs) :
    ∃ w p', Cuts w [] ∧ t = lang.token w p' := by
  induction cs generalizing skip p with
  | nil => simp [Language.scanFrom] at h
  | cons c cs ih =>
    cases skip with
    | succ skip => exact ih h
    | zero =>
      unfold Language.scanFrom at h
      split at h
      · exact ih h
      · next hblank =>
        rcases List.mem_cons.mp h with rfl | h
        · exact ⟨_, p, cuts_tokenTail (by simpa using hblank), rfl⟩
        · exact ih h

/-! ### Kinds and spellings -/

variable {l : Lexeme}

/-- The operator of a lexeme has its name, and the fixity of its category. -/
theorem Lexeme.operator?_eq_some {op : Operator} :
    l.operator? = some op ↔ l.name = op.name ∧ l.category = .operator op.fixity := by
  obtain ⟨name, spellings, category, glosses⟩ := l
  obtain ⟨name', fixity⟩ := op
  cases category <;> simp [Lexeme.operator?]

/-- What a token is that spells a lexeme. -/
def Lexeme.tokenKind (l : Lexeme) : TokenKind :=
  match l.operator? with
  | some op => .operator op
  | none => .entails

/-- What spells nothing is what its first character says. -/
theorem kindOf_of_lookup_eq_none (h : lang.lookup (String.ofList (c :: tail)) = none) :
    lang.kindOf (c :: tail) = TokenKind.ofChar c := by
  simp only [Language.kindOf, Language.tokenKind, h]
  cases TokenKind.ofChar c <;> rfl

/-- What spells a lexeme is what the lexeme is, unless it is a comma or a bracket. -/
theorem kindOf_of_lookup_eq_some (h : lang.lookup (String.ofList (c :: tail)) = some l) :
    lang.kindOf (c :: tail) = TokenKind.ofChar c ∨ lang.kindOf (c :: tail) = l.tokenKind := by
  obtain ⟨name, spellings, category, glosses⟩ := l
  simp only [Language.kindOf, Language.tokenKind, h]
  cases TokenKind.ofChar c <;> cases category <;> simp [Lexeme.tokenKind, Lexeme.operator?]

/-- No first character makes a token an operator or a turnstile. -/
theorem ofChar_ne (c : Char) :
    (∀ op, TokenKind.ofChar c ≠ .operator op) ∧ TokenKind.ofChar c ≠ .entails := by
  unfold TokenKind.ofChar
  repeat' split
  all_goals simp

/-- No token of a text is the one at its end. -/
theorem kindOf_ne_eof (hw : w ≠ []) : lang.kindOf w ≠ .eof := by
  have hchar : ∀ c, TokenKind.ofChar c ≠ .eof := by
    intro c
    unfold TokenKind.ofChar
    repeat' split
    all_goals simp
  match w, hw with
  | c :: tail, _ =>
    cases hlookup : lang.lookup (String.ofList (c :: tail)) with
    | none =>
      rw [kindOf_of_lookup_eq_none hlookup]
      exact hchar c
    | some l =>
      rcases kindOf_of_lookup_eq_some hlookup with hkind | hkind
      · rw [hkind]
        exact hchar c
      · rw [hkind, Lexeme.tokenKind]
        split <;> simp

theorem exists_lookup_of_kindOf (hw : w ≠ []) (hne : ∀ c, TokenKind.ofChar c ≠ lang.kindOf w) :
    ∃ l, lang.lookup (String.ofList w) = some l ∧ lang.kindOf w = l.tokenKind := by
  match w, hw with
  | c :: tail, _ =>
    cases hlookup : lang.lookup (String.ofList (c :: tail)) with
    | none => exact absurd (kindOf_of_lookup_eq_none hlookup).symm (hne c)
    | some l =>
      rcases kindOf_of_lookup_eq_some hlookup with hkind | hkind
      · exact absurd hkind.symm (hne c)
      · exact ⟨l, rfl, hkind⟩

/-- An operator is spelled by a lexeme that stands for it. -/
theorem exists_lookup_of_operator {op : Operator} (h : lang.kindOf w = .operator op) :
    ∃ l, lang.lookup (String.ofList w) = some l ∧ l.operator? = some op := by
  have hw : w ≠ [] := by
    rintro rfl
    cases h
  obtain ⟨l, hlookup, hkind⟩ := exists_lookup_of_kindOf hw fun c => h ▸ (ofChar_ne c).1 op
  refine ⟨l, hlookup, ?_⟩
  rw [h, Lexeme.tokenKind] at hkind
  split at hkind
  · next hop =>
    cases hkind
    exact hop
  · cases hkind

/-- A token that is an operator spells it. -/
theorem operator?_of_mem_scanFrom {t : Token} {skip : Nat} {op : Operator}
    (h : t ∈ lang.scanFrom skip p cs) (hkind : t.kind = .operator op) :
    lang.operator? t.lexeme = some op := by
  obtain ⟨w, p', -, rfl⟩ := exists_of_mem_scanFrom h
  obtain ⟨l, hlookup, hop⟩ := exists_lookup_of_operator hkind
  rw [Language.operator?, Language.token, hlookup]
  exact hop

theorem exists_lookup_of_entails (h : lang.kindOf w = .entails) :
    ∃ l, lang.lookup (String.ofList w) = some l := by
  have hw : w ≠ [] := by
    rintro rfl
    cases h
  obtain ⟨l, hlookup, _⟩ := exists_lookup_of_kindOf hw fun c => h ▸ (ofChar_ne c).2
  exact ⟨l, hlookup⟩

/-! ### Brackets -/

variable {shape : Bracket}

/-- A token that is neither an operator nor a turnstile is what its first character says. -/
theorem ofChar_of_kindOf {kind : TokenKind} (h : lang.kindOf (c :: tail) = kind)
    (hop : ∀ op, kind ≠ .operator op) (hentails : kind ≠ .entails) : TokenKind.ofChar c = kind := by
  cases hlookup : lang.lookup (String.ofList (c :: tail)) with
  | none => rw [← h, kindOf_of_lookup_eq_none hlookup]
  | some l =>
    rcases kindOf_of_lookup_eq_some hlookup with hkind | hkind
    · rw [← h, hkind]
    · rw [h, Lexeme.tokenKind] at hkind
      split at hkind
      · exact absurd hkind (hop _)
      · exact absurd hkind hentails

theorem opened?_of_ofChar (h : TokenKind.ofChar c = .opening shape) :
    Bracket.opened? c = some shape := by
  unfold TokenKind.ofChar at h
  repeat' split at h
  all_goals simp_all

theorem closed?_of_ofChar (h : TokenKind.ofChar c = .closing shape) :
    Bracket.closed? c = some shape := by
  unfold TokenKind.ofChar at h
  repeat' split at h
  all_goals simp_all

theorem Bracket.opened?_cases (h : Bracket.opened? c = some shape) :
    (c = '(' ∧ shape = .round) ∨ (c = '[' ∧ shape = .square) ∨ (c = '\x7b' ∧ shape = .curly) := by
  unfold Bracket.opened? at h
  split at h
  · next hc => exact .inl ⟨hc, (Option.some.inj h).symm⟩
  · split at h
    · next hc => exact .inr (.inl ⟨hc, (Option.some.inj h).symm⟩)
    · split at h
      · next hc => exact .inr (.inr ⟨hc, (Option.some.inj h).symm⟩)
      · cases h

theorem Bracket.closed?_eq_some_iff : Bracket.closed? c = some shape ↔ c = shape.closer := by
  constructor
  · intro h
    unfold Bracket.closed? at h
    split at h
    · next hc =>
      cases h
      exact hc
    · split at h
      · next hc =>
        cases h
        exact hc
      · split at h
        · next hc =>
          cases h
          exact hc
        · cases h
  · rintro rfl
    cases shape <;> rfl

/-- An opening bracket is a token alone. -/
theorem Cuts.of_opening (h : Cuts w rest) (hkind : lang.kindOf w = .opening shape) :
    ∃ c, w = [c] ∧ Bracket.opened? c = some shape := by
  match w, h with
  | c :: tail, h =>
    have hopened := opened?_of_ofChar (ofChar_of_kindOf hkind nofun nofun)
    have htail : tokenTail c (tail ++ rest) = [] := by
      rcases Bracket.opened?_cases hopened with ⟨rfl, -⟩ | ⟨rfl, -⟩ | ⟨rfl, -⟩ <;> rfl
    exact ⟨c, by rw [← h.2, htail], hopened⟩

/-- A closing bracket is a token alone. -/
theorem Cuts.of_closing (h : Cuts w rest) (hkind : lang.kindOf w = .closing shape) :
    w = [shape.closer] := by
  match w, h with
  | c :: tail, h =>
    have hclosed := closed?_of_ofChar (ofChar_of_kindOf hkind nofun nofun)
    obtain rfl := Bracket.closed?_eq_some_iff.mp hclosed
    have htail : tokenTail shape.closer (tail ++ rest) = [] := by cases shape <;> rfl
    rw [← h.2, htail]

end NaturalDeduction
