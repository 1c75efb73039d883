import NaturalDeduction.Parsing.InPlace
import NaturalDeduction.Proofs.Parsing.Unbounded
import NaturalDeduction.Proofs.Scanning.Cursor

/-! # Reading in place is reading

    A parser that moves a scanner through the bytes of a text gives the result of
    the reader that works on the list of all tokens of the text. No part of a
    text is cut out in vain, no bound is reached, and the look-up of an operator
    never fails, because a token is an operator only if it spells one.

    * **Places**: a scanner that has the tokens `ts` before it (`Before`) hands
      them out one by one. Going back to a mark gives the scanner of the mark.
    * **Steps**: a parser tracks a reader if both give the same result with the
      same tokens left, or the same error at the same token (`Tracks`). Then so
      does what goes on with the result (`Tracks.bind`).
    * **Bounds**: a parser follows a reader on all lists of fewer tokens than its
      bound (`Follows`). Whatever is nested or repeated comes after a token that
      is taken, so one less is enough there.
-/

namespace NaturalDeduction

variable {lang : Language} {stream : TokenStream} {s s' : Scanner} {t : Token}
  {ts us rest : List Token}

/-! ### Places -/

namespace Scanner

/-- A scanner can go back to a place in the same text. -/
theorem rescan_mark (hlanguage : s'.language = s.language)
    (hsource : s'.cursor.source = s.cursor.source) : s'.rescan s.mark = s := by
  obtain ⟨language, ⟨source, point, line, lineStart⟩, token⟩ := s
  obtain ⟨language', ⟨source', point', line', lineStart'⟩, token'⟩ := s'
  obtain rfl : language' = language := hlanguage
  obtain rfl : source' = source := hsource
  rfl

/-- The scanner has tokens of a text before it. The text and its end are those of the stream. -/
structure Before (s : Scanner) (lang : Language) (stream : TokenStream) (ts : List Token) :
    Prop where
  language_eq : s.language = lang
  shows : s.Shows { stream with pending := ts }

namespace Before

theorem token_eq (h : s.Before lang stream ts) : s.token = ts.headD stream.eof := h.shows.token_eq

theorem token_cons (h : s.Before lang stream (t :: us)) : s.token = t := h.token_eq

/-- From any place of a text, the scanner can go back to a mark. -/
theorem rescan_mark (h : s.Before lang stream ts) (h' : s'.Before lang stream us) :
    s'.rescan s.mark = s := by
  refine Scanner.rescan_mark (h'.language_eq.trans h.language_eq.symm) ?_
  rw [← String.toList_inj, h.shows.source_eq, h'.shows.source_eq]

/-- The tokens are those of the text from some place on. -/
theorem exists_scanFrom (h : s.Before lang stream ts) :
    ∃ p cs, ts = lang.scanFrom 0 p cs ∧ stream.eof.kind = .eof := by
  obtain ⟨front, back, hplace⟩ := h.shows.placed
  refine ⟨Position.start.after front, back, ?_, ?_⟩
  · rw [← h.language_eq]
    exact congrArg TokenStream.pending hplace
  · exact congrArg (fun stream => stream.eof.kind) hplace

theorem kind_eq_eof (h : s.Before lang stream []) : s.token.kind = .eof := by
  obtain ⟨p, cs, -, heof⟩ := h.exists_scanFrom
  rw [h.token_eq]
  exact heof

/-- The next token is the one at the end, or the first one of the list. -/
theorem token_cases (h : s.Before lang stream ts) :
    (ts = [] ∧ s.token.kind = .eof) ∨ ∃ us, ts = s.token :: us := by
  cases ts with
  | nil => exact .inl ⟨rfl, h.kind_eq_eof⟩
  | cons t us => exact .inr ⟨us, by rw [h.token_cons]⟩

/-- A kind that the first token of the list does not have is not that of the next token. -/
theorem kind_ne {kind : TokenKind} (h : s.Before lang stream ts)
    (hnot : ∀ t ∈ ts.head?, t.kind ≠ kind) (heof : kind ≠ .eof) : s.token.kind ≠ kind := by
  rcases h.token_cases with ⟨-, hkind⟩ | ⟨us, rfl⟩
  · rw [hkind]
    exact heof.symm
  · exact hnot s.token rfl

theorem fixity?_ne {fixity : Fixity} (h : s.Before lang stream ts)
    (hnot : ∀ name, ∀ t ∈ ts.head?, t.kind ≠ .operator ⟨name, fixity⟩) :
    s.token.kind.fixity? ≠ some fixity := by
  intro hfixity
  cases hkind : s.token.kind with
  | operator op =>
    rw [hkind] at hfixity
    obtain rfl : op.fixity = fixity := Option.some.inj hfixity
    exact h.kind_ne (hnot op.name) nofun hkind
  | _ =>
    rw [hkind] at hfixity
    cases hfixity

theorem isOpening_eq_false (h : s.Before lang stream ts)
    (hnot : ∀ shape, ∀ t ∈ ts.head?, t.kind ≠ .opening shape) : s.token.kind.isOpening = false := by
  cases hkind : s.token.kind with
  | opening shape => exact absurd hkind (h.kind_ne (hnot shape) nofun)
  | _ => rfl

theorem exists_cut (h : s.Before lang stream ts) (ht : t ∈ ts) :
    ∃ w p, Cuts w [] ∧ t = lang.token w p := by
  obtain ⟨p, cs, rfl, -⟩ := h.exists_scanFrom
  exact exists_of_mem_scanFrom ht

theorem kind_ne_eof (h : s.Before lang stream (t :: us)) : t.kind ≠ .eof := by
  obtain ⟨w, p, hcuts, rfl⟩ := h.exists_cut List.mem_cons_self
  exact kindOf_ne_eof hcuts.ne_nil

/-- The look-up of an operator never fails. -/
theorem operator?_eq (h : s.Before lang stream (t :: us)) {op : Operator}
    (ht : t.kind = .operator op) : s.language.operator? t.lexeme = some op := by
  obtain ⟨p, cs, hscan, -⟩ := h.exists_scanFrom
  rw [h.language_eq]
  exact operator?_of_mem_scanFrom (hscan ▸ List.mem_cons_self) ht

/-- What closes an opening bracket is told by its shape. -/
theorem closerFor_eq (h : s.Before lang stream (t :: us)) {shape : Bracket}
    (ht : t.kind = .opening shape) : Parser.closerFor t.lexeme = toString shape.closer := by
  obtain ⟨w, p, hcuts, rfl⟩ := h.exists_cut List.mem_cons_self
  obtain ⟨c, rfl, hopened⟩ := hcuts.of_opening ht
  rcases Bracket.opened?_cases hopened with ⟨rfl, rfl⟩ | ⟨rfl, rfl⟩ | ⟨rfl, rfl⟩ <;> rfl

/-- Whether a bracket closes another one is told by its shape. -/
theorem closes_iff (h : s.Before lang stream (t :: us)) (shape : Bracket) :
    (t.kind.isClosing = true ∧ t.lexeme = toString shape.closer) ↔ t.kind = .closing shape := by
  obtain ⟨w, p, hcuts, rfl⟩ := h.exists_cut List.mem_cons_self
  constructor
  · rintro ⟨hclosing, hlexeme⟩
    cases hkind : (lang.token w p).kind with
    | closing shape' =>
      obtain rfl := hcuts.of_closing hkind
      have hcloser : shape'.closer = shape.closer := by
        have hcharacters : String.ofList [shape'.closer] = String.singleton shape.closer := hlexeme
        simpa using congrArg String.toList hcharacters
      have hshape := Bracket.closed?_eq_some_iff.mpr hcloser
      rw [Bracket.closed?_eq_some_iff.mpr rfl] at hshape
      rw [Option.some.inj hshape]
    | _ =>
      rw [hkind] at hclosing
      cases hclosing
  · intro hkind
    refine ⟨by rw [hkind]; rfl, ?_⟩
    obtain rfl := hcuts.of_closing hkind
    cases shape <;> rfl

/-- The next token can be taken, and then the others come. -/
theorem consume? (h : s.Before lang stream ts) :
    ∃ s', s.consume? = some (s.token, s') ∧ s'.Before lang stream ts.tail := by
  obtain ⟨s', hconsume, hshows⟩ := h.shows.consume?
  rw [← h.shows.token_eq] at hconsume
  refine ⟨s', hconsume, ?_, hshows⟩
  obtain ⟨next, -, hnext⟩ := Option.bind_eq_some_iff.mp hconsume
  cases hnext
  exact h.language_eq

end Before

end Scanner

/-! ### Steps -/

namespace Parser

open Scanner (Before)

variable {α β : Type} {p : Parser α}

theorem outcome?_bind (p : Parser α) (k : α → Parser β) (s : Scanner) :
    (p >>= k).outcome? s = (p.outcome? s).bind fun r =>
      match r.1 with
      | .ok x => (k x).outcome? r.2
      | .error e => some (.error e, r.2) := by
  simp only [outcome?, ExceptT.run_bind, StateT.run_bind]
  cases p.run.run s with
  | none => rfl
  | some r =>
    obtain ⟨result, s'⟩ := r
    cases result <;> rfl

/-- What a parser does to a scanner is what a reader does with its tokens: they give the same result
    with the same tokens left, or the same error at the same token. -/
inductive Tracks (lang : Language) (stream : TokenStream) :
    Except ParseFailure (α × List Token) → Option (Except SyntaxError α × Scanner) → Prop
  | ok {x : α} {rest : List Token} {s : Scanner} : s.Before lang stream rest →
      Tracks lang stream (.ok (x, rest)) (some (.ok x, s))
  | error {e : ParseFailure} {s : Scanner} : s.Before lang stream e.rest →
      Tracks lang stream (.error e)
        (some (.error ({ stream with pending := e.rest }.error e.message), s))

/-- What goes on with the same result is tracked too. -/
theorem Tracks.bind {read : Except ParseFailure (α × List Token)}
    {next : α × List Token → Except ParseFailure (β × List Token)} {k : α → Parser β}
    (h : Tracks lang stream read (p.outcome? s))
    (hnext : ∀ x rest s', read = .ok (x, rest) → s'.Before lang stream rest →
      Tracks lang stream (next (x, rest)) ((k x).outcome? s')) :
    Tracks lang stream (read >>= next) ((p >>= k).outcome? s) := by
  rw [outcome?_bind]
  generalize p.outcome? s = out at h
  cases h with
  | ok hbefore => exact hnext _ _ _ rfl hbefore
  | error hbefore => exact .error hbefore

theorem tracks_pure (h : s.Before lang stream rest) (x : α) :
    Tracks lang stream (.ok (x, rest)) ((pure x : Parser α).outcome? s) := .ok h

theorem outcome?_get_bind (k : Scanner → Parser α) (s : Scanner) :
    (get >>= k).outcome? s = (k s).outcome? s := rfl

theorem outcome?_peek_bind (k : Token → Parser α) (s : Scanner) :
    (peek >>= k).outcome? s = (k s.token).outcome? s := rfl

theorem outcome?_fail (h : s.Before lang stream ts) (message : String) :
    (fail message : Parser α).outcome? s =
      some (.error ({ stream with pending := ts }.error message), s) := by
  rw [fail, outcome?_get_bind, h.shows.error?]
  rfl

theorem tracks_fail (h : s.Before lang stream ts) (message : String) :
    Tracks lang stream (.error ⟨message, ts⟩ : Except ParseFailure (α × List Token))
      ((fail message : Parser α).outcome? s) := by
  rw [outcome?_fail h]
  exact .error h

theorem tracks_fail_bind (h : s.Before lang stream ts) (message : String) (k : α → Parser β) :
    Tracks lang stream (.error ⟨message, ts⟩ : Except ParseFailure (β × List Token))
      ((fail message >>= k).outcome? s) := by
  rw [outcome?_bind, outcome?_fail h]
  exact .error h

/-- The next token is taken. -/
theorem exists_consume (h : s.Before lang stream ts) :
    ∃ s', s'.Before lang stream ts.tail ∧
      ∀ k : Token → Parser α, (consume >>= k).outcome? s = (k s.token).outcome? s' := by
  obtain ⟨s', hconsume, hs'⟩ := h.consume?
  refine ⟨s', hs', ?_⟩
  intro k
  have hrun : consume.outcome? s = s.consume?.bind fun r => some (.ok r.1, r.2) := by
    rw [consume, outcome?_get_bind]
    cases s.consume? <;> rfl
  rw [outcome?_bind, hrun, hconsume]
  rfl

/-- The operator that the next token spells is found, and the token is taken. -/
theorem exists_operator (h : s.Before lang stream (t :: us)) {op : Operator}
    (ht : t.kind = .operator op) :
    ∃ s', s'.Before lang stream us ∧ ∀ k : Operator → Parser α,
      (operator s.token >>= fun op => consume >>= fun _ => k op).outcome? s = (k op).outcome? s' := by
  obtain ⟨s', hs', hconsume⟩ := exists_consume h
  refine ⟨s', hs', ?_⟩
  intro k
  have hrun : (operator s.token).outcome? s = some (.ok op, s) := by
    rw [operator, outcome?_get_bind, h.token_cons, h.operator?_eq ht]
    rfl
  rw [outcome?_bind, hrun, Option.bind_some]
  exact hconsume fun _ => k op

/-- The next token is taken if it is wanted. -/
theorem exists_expect (wanted : TokenKind → Bool) (h : s.Before lang stream ts)
    (hwanted : wanted s.token.kind = true) (message : String) :
    ∃ s', s'.Before lang stream ts.tail ∧ ∀ k : Token → Parser α,
      (expect wanted message >>= k).outcome? s = (k s.token).outcome? s' := by
  obtain ⟨s', hconsume, hs'⟩ := h.consume?
  refine ⟨s', hs', ?_⟩
  intro k
  have hrun : (expect wanted message).outcome? s = some (.ok s.token, s') := by
    rw [expect, outcome?_get_bind, Scanner.expect?, if_pos hwanted, hconsume]
    rfl
  rw [outcome?_bind, hrun]
  rfl

/-- What is not wanted is an error. -/
theorem outcome?_expect_bind {wanted : TokenKind → Bool} (h : s.Before lang stream ts)
    (hwanted : wanted s.token.kind = false) (message : String) (k : Token → Parser α) :
    (expect wanted message >>= k).outcome? s =
      some (.error ({ stream with pending := ts }.error message), s) := by
  have hrun : (expect wanted message).outcome? s =
      some (.error ({ stream with pending := ts }.error message), s) := by
    rw [expect, outcome?_get_bind, Scanner.expect?, hwanted, h.shows.error?]
    rfl
  rw [outcome?_bind, hrun]
  rfl

/-! ### Expressions -/

/-- The parser tracks the reader on all lists of fewer tokens than the bound. -/
def Follows (lang : Language) (stream : TokenStream) (bound : Nat) (p : Parser α)
    (reader : Reader α) : Prop :=
  ∀ ts s, ts.length < bound → s.Before lang stream ts →
    Tracks lang stream (reader ts) (p.outcome? s)

theorem tracks_close (h : s.Before lang stream ts) {opener : String} {shape : Bracket}
    (hopener : closerFor opener = toString shape.closer) :
    Tracks lang stream (Reader.close shape ts) ((close opener).outcome? s) := by
  rw [close, outcome?_peek_bind, hopener]
  rcases h.token_cases with ⟨rfl, hkind⟩ | ⟨us, rfl⟩
  · rw [if_neg (by rw [hkind]; nofun)]
    exact tracks_fail h _
  · -- brackets are compared as texts here, and by their shapes in the reader
    by_cases hcloses : s.token.kind = .closing shape
    · obtain ⟨s', hs', hconsume⟩ := exists_consume h
      have hok : Reader.close shape (s.token :: us) = .ok ((), us) :=
        Reader.close_eq_ok.mpr ⟨_, rfl, hcloses⟩
      rw [if_pos ((h.closes_iff shape).mpr hcloses), hconsume, hok]
      exact .ok hs'
    · have herror : Reader.close shape (s.token :: us) =
          .error ⟨s!"'{shape.closer}' expected.", s.token :: us⟩ :=
        Reader.close_eq_error_iff.mpr ⟨by simpa using hcloses, rfl⟩
      rw [if_neg (mt (h.closes_iff shape).mp hcloses), herror]
      exact tracks_fail h _

theorem tracks_postfixes (bound : Nat) (f : Formula) (h : s.Before lang stream ts)
    (hbound : ts.length < bound) :
    Tracks lang stream (.ok (Reader.postfixes f ts)) ((postfixes bound f).outcome? s) := by
  induction bound generalizing f ts s with
  | zero => cases hbound
  | succ bound ih =>
    rw [postfixes, outcome?_peek_bind]
    unfold Reader.postfixes
    split
    · next name lexeme p rest =>
      obtain ⟨s', hs', hoperator⟩ := exists_operator h rfl
      rw [if_pos (by rw [h.token_cons]; rfl), hoperator]
      exact ih _ hs' (Nat.lt_of_succ_lt_succ hbound)
    · next hnot =>
      rw [if_neg (h.fixity?_ne fun name => Reader.head_kind_ne (hnot name))]
      exact tracks_pure h f

theorem follows_expressionOf {bound : Nat} {term : Parser Formula} {reader : Reader Formula}
    {derives : List Token → Formula → Prop} (h : Follows lang stream bound term reader)
    (hsound : Reader.Sound reader derives) :
    Follows lang stream bound (expressionOf term) (Reader.expressionOf reader) := by
  intro ts s hbound hs
  refine (h ts s hbound hs).bind ?_
  intro left rest s' hleft hs'
  have hle := hsound.length_le hleft
  rw [outcome?_peek_bind]
  dsimp only
  split
  · next name lexeme p rest' =>
    obtain ⟨s'', hs'', hoperator⟩ := exists_operator hs' rfl
    rw [if_pos (by rw [hs'.token_cons]; rfl), hoperator]
    rw [List.length_cons] at hle
    refine (h rest' s'' (by omega) hs'').bind ?_
    intro right rest'' s₃ _ hs₃
    exact tracks_pure hs₃ _
  · next hnot =>
    rw [if_neg (hs'.fixity?_ne fun name => Reader.head_kind_ne (hnot name))]
    exact tracks_pure hs' left

/-- A term that starts with no prefix operator starts with a primary. -/
theorem outcome?_term (kind : SymbolKind) (bound : Nat)
    (h : s.token.kind.fixity? ≠ some .prefixed) :
    (term kind (bound + 1)).outcome? s =
      (primary kind (expressionOf (term kind bound)) >>= postfixes (bound + 1)).outcome? s := by
  rw [term, outcome?_peek_bind, if_neg h]

theorem tracks_term_of_not_startsTerm (kind : SymbolKind) (bound : Nat)
    (h : s.Before lang stream ts) (hnot : ∀ t ∈ ts.head?, ¬ Reader.StartsTerm t) :
    Tracks lang stream (.error ⟨"Term expected.", ts⟩) ((term kind (bound + 1)).outcome? s) := by
  have hprefixed : s.token.kind.fixity? ≠ some .prefixed :=
    h.fixity?_ne fun name t ht hkind => hnot t ht (.prefixed hkind)
  rw [outcome?_term kind bound hprefixed, primary, bind_assoc, outcome?_peek_bind]
  cases hkind : s.token.kind with
  | opening shape =>
    exact absurd hkind (h.kind_ne (fun t ht hkind => hnot t ht (.opening hkind)) nofun)
  | symbol => exact absurd hkind (h.kind_ne (fun t ht hkind => hnot t ht (.symbol hkind)) nofun)
  | _ => exact tracks_fail_bind h _ _

theorem tracks_term_of_symbol {name : String} {p : Position} (kind : SymbolKind) {bound : Nat}
    (h : s.Before lang stream (⟨.symbol, name, p⟩ :: us)) (hbound : us.length < bound) :
    Tracks lang stream (Reader.term kind (bound + 1) (⟨.symbol, name, p⟩ :: us))
      ((term kind (bound + 1)).outcome? s) := by
  have hkind : s.token.kind = .symbol := by rw [h.token_cons]
  obtain ⟨s', hs', hconsume⟩ := exists_consume (α := Formula) h
  rw [outcome?_term kind bound (by rw [hkind]; nofun), primary, bind_assoc, outcome?_peek_bind,
    hkind]
  simp only [bind_assoc, pure_bind]
  rw [hconsume, h.token_cons]
  exact tracks_postfixes _ _ hs' (by omega)

theorem tracks_term_of_opening {shape : Bracket} {lexeme : String} {p : Position}
    {kind : SymbolKind} {bound : Nat}
    (hterm : Follows lang stream bound (term kind bound) (Reader.term kind bound))
    (h : s.Before lang stream (⟨.opening shape, lexeme, p⟩ :: us)) (hbound : us.length < bound) :
    Tracks lang stream (Reader.term kind (bound + 1) (⟨.opening shape, lexeme, p⟩ :: us))
      ((term kind (bound + 1)).outcome? s) := by
  have hkind : s.token.kind = .opening shape := by rw [h.token_cons]
  have hsound : Reader.Sound (Reader.term kind bound) _ := Reader.term_sound bound
  obtain ⟨s', hs', hconsume⟩ := exists_consume (α := Formula) h
  rw [outcome?_term kind bound (by rw [hkind]; nofun), primary, bind_assoc, outcome?_peek_bind,
    hkind]
  simp only [bind_assoc, pure_bind]
  rw [hconsume, h.token_cons]
  refine (follows_expressionOf hterm hsound us s' hbound hs').bind ?_
  intro f rest s'' hf hs''
  have hle := (Reader.expressionOf_sound hsound).length_le hf
  refine (tracks_close hs'' (h.closerFor_eq rfl)).bind ?_
  intro _ rest' s₃ hclose hs₃
  obtain ⟨t', rfl, -⟩ := Reader.close_eq_ok.mp hclose
  rw [List.length_cons] at hle
  exact tracks_postfixes _ f hs₃ (by omega)

theorem follows_term (kind : SymbolKind) (bound : Nat) :
    Follows lang stream bound (term kind bound) (Reader.term kind bound) := by
  -- what is nested comes after a prefix operator or a bracket, so there are fewer tokens for it
  induction bound with
  | zero =>
    intro ts s hbound
    cases hbound
  | succ bound ih =>
    intro ts s hbound h
    cases ts with
    | nil => exact tracks_term_of_not_startsTerm kind bound h nofun
    | cons t us =>
      have hrest : us.length < bound := Nat.lt_of_succ_lt_succ hbound
      obtain ⟨tokenKind, lexeme, p⟩ := t
      cases tokenKind with
      | operator op =>
        obtain ⟨name, fixity⟩ := op
        cases fixity with
        | prefixed =>
          obtain ⟨s', hs', hoperator⟩ := exists_operator h rfl
          rw [term, outcome?_peek_bind, if_pos (by rw [h.token_cons]; rfl), hoperator]
          refine (ih us s' hrest hs').bind ?_
          intro f rest s'' _ hs''
          exact tracks_pure hs'' _
        | _ => exact tracks_term_of_not_startsTerm kind bound h (by rintro t ⟨⟩; nofun)
      | opening shape => exact tracks_term_of_opening ih h hrest
      | symbol => exact tracks_term_of_symbol kind h hrest
      | _ => exact tracks_term_of_not_startsTerm kind bound h (by rintro t ⟨⟩; nofun)

theorem follows_expression (kind : SymbolKind) (bound : Nat) :
    Follows lang stream bound (expression kind bound) (Reader.expression kind) := by
  intro ts s hbound h
  have hreader : Reader.expression kind ts = Reader.expressionOf (Reader.term kind bound) ts :=
    Reader.expressionOf_congr (Reader.term_sound _) fun us hus => Reader.term_depth hus (by omega)
  rw [hreader]
  exact follows_expressionOf (follows_term kind bound) (Reader.term_sound bound) ts s hbound h

/-! ### Sequents -/

theorem tracks_separated {bound : Nat} {member : Parser α} {reader : Reader α}
    {derives : List Token → α → Prop} (hmember : Follows lang stream bound member reader)
    (hsound : Reader.Sound reader derives) (count : Nat) (h : s.Before lang stream ts)
    (hbound : ts.length < bound) (hcount : ts.length < count) :
    Tracks lang stream (Reader.separated reader count ts)
      ((separated member count).outcome? s) := by
  induction count generalizing ts s with
  | zero => cases hcount
  | succ count ih =>
    -- no token has to be used up by a member, but one is by a comma
    refine (hmember ts s hbound h).bind ?_
    intro x rest s' hx hs'
    have hle := hsound.length_le hx
    rw [outcome?_peek_bind]
    dsimp only
    split
    · next lexeme p rest' =>
      obtain ⟨s'', hs'', hconsume⟩ := exists_consume (α := List α) hs'
      rw [if_pos (by rw [hs'.token_cons]), hconsume]
      rw [List.length_cons] at hle
      rw [List.tail_cons] at hs''
      refine (ih hs'' (by omega) (by omega)).bind ?_
      intro xs rest'' s₃ _ hs₃
      exact tracks_pure hs₃ _
    · next hnot =>
      rw [if_neg (hs'.kind_ne (Reader.head_kind_ne hnot) nofun)]
      exact tracks_pure hs' _

theorem follows_separated {bound : Nat} {member : Parser α} {reader : Reader α}
    {derives : List Token → α → Prop} (hmember : Follows lang stream bound member reader)
    (hsound : Reader.Sound reader derives) :
    Follows lang stream bound (separated member bound) (Reader.members reader) := by
  intro ts s hbound h
  have hreader : Reader.members reader ts = Reader.separated reader bound ts :=
    Reader.separated_bound hsound (Nat.le_refl _) (by omega)
  rw [hreader]
  exact tracks_separated hmember hsound bound h hbound hbound

theorem follows_premisesOf {bound : Nat} {premise : Parser Form} {reader : Reader Form}
    {derives : List Token → Form → Prop} (hpremise : Follows lang stream bound premise reader)
    (hsound : Reader.Sound reader derives) :
    Follows lang stream bound (premisesOf premise bound) (Reader.premisesOf reader) := by
  intro ts s hbound h
  rw [premisesOf, outcome?_peek_bind]
  unfold Reader.premisesOf
  split
  · next lexeme p us =>
    rw [if_pos (by rw [h.token_cons])]
    exact tracks_pure h _
  · next hnot =>
    rw [if_neg (h.kind_ne (Reader.head_kind_ne hnot) nofun)]
    exact follows_separated hpremise hsound ts s hbound h

theorem follows_sequentOf {bound : Nat} {premise : Parser Form} {reader : Reader Form}
    {derives : List Token → Form → Prop} (kind : SymbolKind)
    (hpremise : Follows lang stream bound premise reader) (hsound : Reader.Sound reader derives) :
    Follows lang stream bound (sequentOf kind premise bound) (Reader.sequentOf kind reader) := by
  intro ts s hbound h
  refine (follows_premisesOf hpremise hsound ts s hbound h).bind ?_
  intro premises rest s' hpremises hs'
  have hle := Reader.length_le_of_premisesOf hsound hpremises
  rcases Reader.head_cases (fun t => t.kind = .entails) rest with hnot | ⟨t, us, rfl, ht⟩
  · have herror : Reader.turnstile rest = .error ⟨"'|-' expected.", rest⟩ :=
      Reader.turnstile_eq_error_iff.mpr ⟨hnot, rfl⟩
    dsimp only
    rw [herror, outcome?_expect_bind hs' (decide_eq_false (hs'.kind_ne hnot nofun))]
    exact .error hs'
  · have hok : Reader.turnstile (t :: us) = .ok ((), us) :=
      Reader.turnstile_eq_ok.mpr ⟨t, rfl, ht⟩
    obtain ⟨s'', hs'', hexpect⟩ := exists_expect (· = .entails) hs'
      (decide_eq_true (by rw [hs'.token_cons, ht])) "'|-' expected."
    dsimp only
    rw [hok, hexpect]
    rw [List.length_cons] at hle
    refine (follows_separated (follows_expression kind bound) Reader.expression_sound us s''
      (by omega) hs'').bind ?_
    intro conclusions rest' s₃ _ hs₃
    exact tracks_pure hs₃ _

theorem outcome?_tryCatch (p : Parser α) (handler : SyntaxError → Parser α) (s : Scanner) :
    (tryCatch p handler).outcome? s = (p.outcome? s).bind fun r =>
      match r.1 with
      | .ok x => some (.ok x, r.2)
      | .error e => (handler e).outcome? r.2 := by
  show (p.outcome? s).bind _ = (p.outcome? s).bind _
  refine congrArg _ (funext ?_)
  rintro ⟨result, s'⟩
  cases result <;> rfl

theorem follows_premise (kind : SymbolKind) (bound : Nat) :
    Follows lang stream bound (premise kind bound) (Reader.premise kind bound) := by
  induction bound with
  | zero =>
    intro ts s hbound
    cases hbound
  | succ bound ih =>
    intro ts s hbound h
    have hexpression := follows_expression kind (bound + 1) ts s hbound h
    rw [premise, outcome?_get_bind, outcome?_tryCatch, outcome?_bind]
    unfold Reader.premise
    generalize Reader.expression kind ts = read at hexpression
    generalize (expression kind (bound + 1)).outcome? s = out at hexpression
    cases hexpression with
    | ok hs' => exact .ok hs'
    | @error e s' hs' =>
      -- whatever the first attempt has used up, the second one starts where it did
      show Tracks lang stream _
        ((expect TokenKind.isOpening "'(' expected." >>= _).outcome? (s'.rescan s.mark))
      rw [h.rescan_mark hs']
      dsimp only
      split
      · next depth shape lexeme p us hdepth =>
        cases hdepth
        obtain ⟨s'', hs'', hexpect⟩ := exists_expect TokenKind.isOpening h
          (by rw [h.token_cons]; rfl) "'(' expected."
        rw [hexpect, h.token_cons]
        rw [List.length_cons] at hbound
        have hsequent := follows_sequentOf kind ih (Reader.premise_sound bound)
        refine (hsequent us s'' (by omega) hs'').bind ?_
        intro q rest s₃ _ hs₃
        refine (tracks_close hs₃ (h.closerFor_eq rfl)).bind ?_
        intro _ rest' s₄ _ hs₄
        exact tracks_pure hs₄ _
      · next hnot =>
        have hopening : s.token.kind.isOpening = false := h.isOpening_eq_false fun shape =>
          Reader.head_kind_ne fun lexeme p us => hnot bound shape lexeme p us rfl
        rw [outcome?_expect_bind h hopening]
        exact .error h

theorem follows_sequent (kind : SymbolKind) (bound : Nat) :
    Follows lang stream bound (sequent kind bound) (Reader.sequent kind) := by
  intro ts s hbound h
  have hreader : Reader.sequent kind ts = Reader.sequentOf kind (Reader.premise kind bound) ts :=
    Reader.sequentOf_congr (Reader.premise_sound _) fun us hus => Reader.premise_depth hus (by omega)
  rw [hreader]
  exact follows_sequentOf kind (follows_premise kind bound) (Reader.premise_sound bound) ts s hbound h

/-! ### Whole texts -/

/-- Tokens that are left over are an error at the first of them. -/
theorem outcome?_toEnd {bound : Nat} {reader : Reader α} (hp : Follows lang stream bound p reader)
    (hbound : ts.length < bound) (h : s.Before lang stream ts) :
    (p.toEnd.outcome? s).map Prod.fst =
      some ((reader.toEnd ts).mapError fun e => { stream with pending := e.rest }.error e.message) := by
  have hread := hp ts s hbound h
  rw [toEnd, outcome?_bind]
  unfold Reader.toEnd
  generalize reader ts = read at hread
  generalize p.outcome? s = out at hread
  cases hread with
  | @ok x rest s' hs' =>
    cases rest with
    | nil =>
      obtain ⟨s'', -, hexpect⟩ := exists_expect (· = .eof) hs'
        (decide_eq_true hs'.kind_eq_eof) "EOF expected."
      exact congrArg (Option.map Prod.fst) (hexpect fun _ => pure x)
    | cons t us =>
      have hnot : s'.token.kind ≠ .eof := by
        rw [hs'.token_cons]
        exact hs'.kind_ne_eof
      exact congrArg (Option.map Prod.fst)
        (outcome?_expect_bind hs' (decide_eq_false hnot) "EOF expected." fun _ => pure x)
  | error hs' => rfl

end Parser

namespace Language

variable {α : Type} {parser : (bound : Nat) → Parser α} {reader : Reader α}

/-- **Reading in place is reading.** A parser that follows a reader gives its result on every text. -/
theorem parse?_eq (lang : Language) (source : String)
    (h : ∀ stream bound, Parser.Follows lang stream bound (parser bound) reader) :
    lang.parse? parser source = some (lang.read reader source) := by
  obtain ⟨s, hscanner, hshows⟩ := Scanner.ofText?_shows lang source
  have hlanguage : s.language = lang := by
    obtain ⟨next, -, hnext⟩ := Option.bind_eq_some_iff.mp hscanner
    cases hnext
    rfl
  have hlength : (lang.scan source).length < source.length + 1 :=
    Nat.lt_succ_of_le (tiles_scanFrom lang .start source.toList).length_le
  have hend := Parser.outcome?_toEnd (h (.ofText lang source) (source.length + 1)) hlength
    ⟨hlanguage, hshows⟩
  rw [parse?, hscanner, Option.bind_eq_bind, Option.bind_some, hend, read]
  cases hresult : reader.toEnd (lang.scan source) with
  | ok x => rw [TokenStream.ofText, hresult, Except.mapError]
  | error e => rw [TokenStream.ofText, hresult, Except.mapError]

theorem parseFormula?_eq (lang : Language) (kind : SymbolKind) (source : String) :
    lang.parseFormula? kind source = some (lang.parseFormula kind source) :=
  lang.parse?_eq source fun _ => Parser.follows_expression kind

theorem parseSequent?_eq (lang : Language) (kind : SymbolKind) (source : String) :
    lang.parseSequent? kind source = some (lang.parseSequent kind source) :=
  lang.parse?_eq source fun _ => Parser.follows_sequent kind

end Language

end NaturalDeduction
