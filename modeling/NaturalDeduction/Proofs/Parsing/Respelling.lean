import Mathlib.Data.List.Forall2
import NaturalDeduction.Language.Horseshoe
import NaturalDeduction.Parsing
import NaturalDeduction.Proofs.Scanning.Positions

/-! # Reading is independent of spelling

    A reader sees the kinds of tokens, and of symbols also the text. Where the
    tokens stand, and which spelling of an operator was written, does not matter
    to it.

    * **Two runs**: on tokens that are alike, readers take the same decisions at
      every token, and so leave off at the same token, with the same result or
      the same message (`InStep`). This goes for attempts that fail, too: both
      runs go back to where they began.
    * **Main statement**: texts whose tokens differ only in the spelling of
      lexemes are read alike.
-/

namespace NaturalDeduction

/-! ### Tokens that are alike -/

/-- The tokens are the same to a reader. -/
def Token.Alike (t u : Token) : Prop :=
  t.kind = u.kind ∧ (t.kind = .symbol → t.lexeme = u.lexeme)

theorem Token.Alike.exists_eq {t u : Token} (h : t.Alike u) :
    ∃ kind lexeme lexeme' p p', t = ⟨kind, lexeme, p⟩ ∧ u = ⟨kind, lexeme', p'⟩ ∧
      (kind = .symbol → lexeme = lexeme') :=
  ⟨t.kind, t.lexeme, u.lexeme, t.position, u.position, rfl, by rw [h.1], h.2⟩

namespace Reader

variable {α β : Type} {kind : SymbolKind} {ts us : List Token} {shape : Bracket} {n : Nat}

/-- Two runs leave off at the same token, with the same result or the same message. -/
def InStep (ts us : List Token) :
    Except ParseFailure (α × List Token) → Except ParseFailure (α × List Token) → Prop
  | .ok (x, rest), .ok (y, rest') => x = y ∧ ∃ n, rest = ts.drop n ∧ rest' = us.drop n
  | .error e, .error e' =>
    e.message = e'.message ∧ ∃ n, e.rest = ts.drop n ∧ e'.rest = us.drop n
  | _, _ => False

/-- The reader does the same on all tokens that are alike. -/
def Uniform (reader : Reader α) : Prop :=
  ∀ ts us, List.Forall₂ Token.Alike ts us → InStep ts us (reader ts) (reader us)

/-! ### Runs in step -/

theorem InStep.drop {r r' : Except ParseFailure (α × List Token)}
    (h : InStep (ts.drop n) (us.drop n) r r') : InStep ts us r r' := by
  match r, r', h with
  | .ok (x, rest), .ok (y, rest'), ⟨hx, m, hrest, hrest'⟩ =>
    exact ⟨hx, n + m, by rw [hrest, List.drop_drop], by rw [hrest', List.drop_drop]⟩
  | .error e, .error e', ⟨he, m, hrest, hrest'⟩ =>
    exact ⟨he, n + m, by rw [hrest, List.drop_drop], by rw [hrest', List.drop_drop]⟩

/-- Runs in step stay in step if what comes next does. -/
theorem InStep.bind {x y : Except ParseFailure (α × List Token)}
    {f : α × List Token → Except ParseFailure (β × List Token)} (h : InStep ts us x y)
    (halike : List.Forall₂ Token.Alike ts us)
    (hf : ∀ a ts us, List.Forall₂ Token.Alike ts us → InStep ts us (f (a, ts)) (f (a, us))) :
    InStep ts us (x >>= f) (y >>= f) := by
  match x, y, h with
  | .ok (a, rest), .ok (b, rest'), ⟨hab, n, hrest, hrest'⟩ =>
    subst hab hrest hrest'
    exact (hf a _ _ (List.forall₂_drop n halike)).drop
  | .error e, .error e', h => exact h

theorem inStep_ok (x : α) (n : Nat) : InStep ts us (.ok (x, ts.drop n)) (.ok (x, us.drop n)) :=
  ⟨rfl, n, rfl, rfl⟩

theorem inStep_error (α : Type) (message : String) (ts us : List Token) :
    InStep ts us (.error ⟨message, ts⟩ : Except ParseFailure (α × List Token))
      (.error ⟨message, us⟩) :=
  ⟨rfl, 0, rfl, rfl⟩

/-! ### Readers of formulas -/

theorem close_uniform (shape : Bracket) : Uniform (close shape) := by
  intro ts us h
  cases h with
  | nil => exact inStep_error Unit _ [] []
  | @cons t u ts us halike _ =>
    obtain ⟨kind, lexeme, lexeme', p, p', rfl, rfl, -⟩ := halike.exists_eq
    cases kind with
    | closing shape' =>
      by_cases hshape : shape' = shape
      · simp only [close, if_pos hshape]
        exact inStep_ok () 1
      · simp only [close, if_neg hshape]
        exact inStep_error Unit _ _ _
    | _ => exact inStep_error Unit _ _ _

theorem postfixes_inStep (h : List.Forall₂ Token.Alike ts us) (f : Formula) :
    InStep ts us (.ok (postfixes f ts)) (.ok (postfixes f us)) := by
  induction h generalizing f with
  | nil => exact inStep_ok f 0
  | @cons t u ts us halike _ ih =>
    obtain ⟨kind, lexeme, lexeme', p, p', rfl, rfl, -⟩ := halike.exists_eq
    cases kind with
    | operator op =>
      obtain ⟨name, fixity⟩ := op
      cases fixity with
      | postfixed => exact InStep.drop (n := 1) (ih _)
      | prefixed => exact inStep_ok f 0
      | infixed => exact inStep_ok f 0
    | _ => exact inStep_ok f 0

theorem expressionOf_uniform {term : Reader Formula} (hterm : Uniform term) :
    Uniform (expressionOf term) := by
  intro ts us h
  refine (hterm ts us h).bind h ?_
  intro left ts us hrest
  cases hrest with
  | nil => exact inStep_ok left 0
  | @cons t u ts us halike hrest =>
    obtain ⟨kind, lexeme, lexeme', p, p', rfl, rfl, -⟩ := halike.exists_eq
    cases kind with
    | operator op =>
      obtain ⟨name, fixity⟩ := op
      cases fixity with
      | infixed =>
        refine InStep.drop (n := 1) ?_
        refine (hterm ts us hrest).bind hrest ?_
        intro right ts us _
        exact inStep_ok _ 0
      | prefixed => exact inStep_ok left 0
      | postfixed => exact inStep_ok left 0
    | _ => exact inStep_ok left 0

theorem term_uniform (kind : SymbolKind) (depth : Nat) : Uniform (term kind depth) := by
  induction depth with
  | zero => exact fun ts us _ => inStep_error Formula _ ts us
  | succ depth ih =>
    intro ts us h
    cases h with
    | nil => exact inStep_error Formula _ [] []
    | @cons t u ts us halike hrest =>
      obtain ⟨tokenKind, lexeme, lexeme', p, p', rfl, rfl, hlexeme⟩ := halike.exists_eq
      cases tokenKind with
      | operator op =>
        obtain ⟨name, fixity⟩ := op
        cases fixity with
        | prefixed =>
          refine InStep.drop (n := 1) ?_
          refine (ih ts us hrest).bind hrest ?_
          intro f ts us _
          exact inStep_ok _ 0
        | infixed => exact inStep_error Formula _ _ _
        | postfixed => exact inStep_error Formula _ _ _
      | opening shape =>
        refine InStep.drop (n := 1) ?_
        refine (expressionOf_uniform ih ts us hrest).bind hrest ?_
        intro f ts us hrest
        refine (close_uniform shape ts us hrest).bind hrest ?_
        intro _ ts us hrest
        exact postfixes_inStep hrest f
      | symbol =>
        obtain rfl : lexeme = lexeme' := hlexeme rfl
        exact InStep.drop (n := 1) (postfixes_inStep hrest _)
      | _ => exact inStep_error Formula _ _ _

theorem expression_uniform (kind : SymbolKind) : Uniform (expression kind) := by
  intro ts us h
  unfold expression
  rw [h.length_eq]
  exact expressionOf_uniform (term_uniform kind us.length) ts us h

/-! ### Readers of sequents -/

theorem separated_uniform {member : Reader α} (hmember : Uniform member) (bound : Nat) :
    Uniform (separated member bound) := by
  induction bound with
  | zero =>
    intro ts us h
    refine (hmember ts us h).bind h ?_
    intro x ts us _
    exact inStep_ok _ 0
  | succ bound ih =>
    intro ts us h
    refine (hmember ts us h).bind h ?_
    intro x ts us hrest
    cases hrest with
    | nil => exact inStep_ok _ 0
    | @cons t u ts us halike hrest =>
      obtain ⟨kind, lexeme, lexeme', p, p', rfl, rfl, -⟩ := halike.exists_eq
      cases kind with
      | comma =>
        refine InStep.drop (n := 1) ?_
        refine (ih ts us hrest).bind hrest ?_
        intro xs ts us _
        exact inStep_ok _ 0
      | _ => exact inStep_ok _ 0

theorem turnstile_uniform : Uniform turnstile := by
  intro ts us h
  cases h with
  | nil => exact inStep_error Unit _ [] []
  | @cons t u ts us halike _ =>
    obtain ⟨kind, lexeme, lexeme', p, p', rfl, rfl, -⟩ := halike.exists_eq
    cases kind with
    | entails => exact inStep_ok () 1
    | _ => exact inStep_error Unit _ _ _

theorem premisesOf_uniform {premise : Reader Form} (hpremise : Uniform premise) :
    Uniform (premisesOf premise) := by
  intro ts us h
  have hmembers := separated_uniform hpremise us.length ts us h
  unfold premisesOf
  rw [h.length_eq]
  cases h with
  | nil => exact hmembers
  | @cons t u ts us halike _ =>
    obtain ⟨kind, lexeme, lexeme', p, p', rfl, rfl, -⟩ := halike.exists_eq
    cases kind with
    | entails => exact inStep_ok [] 0
    | _ => exact hmembers

theorem sequentOf_uniform {premise : Reader Form} (hpremise : Uniform premise) :
    Uniform (sequentOf kind premise) := by
  intro ts us h
  refine (premisesOf_uniform hpremise ts us h).bind h ?_
  intro premises ts us hrest
  refine (turnstile_uniform ts us hrest).bind hrest ?_
  intro _ ts us hrest
  dsimp only
  rw [hrest.length_eq]
  refine (separated_uniform (expression_uniform kind) _ ts us hrest).bind hrest ?_
  intro conclusions ts us _
  exact inStep_ok _ 0

/-- Both attempts at a premise fail together, and the second one starts where the first one did. -/
theorem premise_uniform_of {depth : Nat}
    (hnested : ∀ depth', depth = depth' + 1 → Uniform (premise kind depth')) :
    Uniform (premise kind depth) := by
  intro ts us h
  have hfirst := expression_uniform kind ts us h
  unfold premise
  match expression kind ts, expression kind us, hfirst with
  | .ok (f, rest), .ok (g, rest'), ⟨hfg, n, hrest, hrest'⟩ =>
    subst hfg hrest hrest'
    exact inStep_ok _ n
  | .error e, .error e', _ =>
    cases depth with
    | zero => exact inStep_error Form _ ts us
    | succ depth =>
      cases h with
      | nil => exact inStep_error Form _ [] []
      | @cons t u ts us halike hrest =>
        obtain ⟨tokenKind, lexeme, lexeme', p, p', rfl, rfl, -⟩ := halike.exists_eq
        cases tokenKind with
        | opening shape =>
          refine InStep.drop (n := 1) ?_
          refine (sequentOf_uniform (hnested depth rfl) ts us hrest).bind hrest ?_
          intro s ts us hrest
          refine (close_uniform shape ts us hrest).bind hrest ?_
          intro _ ts us _
          exact inStep_ok _ 0
        | _ => exact inStep_error Form _ _ _

theorem premise_uniform (kind : SymbolKind) (depth : Nat) : Uniform (premise kind depth) := by
  induction depth with
  | zero => exact premise_uniform_of (by simp)
  | succ depth ih =>
    refine premise_uniform_of ?_
    intro depth' hdepth
    obtain rfl := Nat.succ.inj hdepth
    exact ih

theorem sequent_uniform (kind : SymbolKind) : Uniform (sequent kind) := by
  intro ts us h
  unfold sequent
  rw [h.length_eq]
  exact sequentOf_uniform (premise_uniform kind us.length) ts us h

/-! ### Whole texts -/

/-- Two runs on all tokens give the same result, or the same message at the same token. -/
theorem Uniform.toEnd {reader : Reader α} (hreader : Uniform reader)
    (h : List.Forall₂ Token.Alike ts us) :
    (∃ x, reader.toEnd ts = .ok x ∧ reader.toEnd us = .ok x) ∨
      ∃ e e' n, reader.toEnd ts = .error e ∧ reader.toEnd us = .error e' ∧
        e.message = e'.message ∧ e.rest = ts.drop n ∧ e'.rest = us.drop n := by
  have hread := hreader ts us h
  unfold Reader.toEnd
  match reader ts, reader us, hread with
  | .ok (x, rest), .ok (y, rest'), ⟨hxy, n, hrest, hrest'⟩ =>
    subst hxy
    have hlength : rest.length = rest'.length := by
      rw [hrest, hrest']
      exact (List.forall₂_drop n h).length_eq
    -- either both runs use up all tokens or none does
    cases rest with
    | nil =>
      obtain rfl := List.length_eq_zero_iff.mp hlength.symm
      exact .inl ⟨x, rfl, rfl⟩
    | cons t rest =>
      cases rest' with
      | nil => cases hlength
      | cons u rest' => exact .inr ⟨_, _, n, rfl, rfl, rfl, hrest, hrest'⟩
  | .error e, .error e', ⟨hmessage, n, hrest, hrest'⟩ =>
    exact .inr ⟨e, e', n, rfl, rfl, hmessage, hrest, hrest'⟩

end Reader

/-! ### Texts with other spellings -/

namespace Language

open Reader

variable {α : Type} {lang : Language} {source source' : String}

/-- Two texts are read alike: with the same result, or with the same message at tokens that stand
    at the same place among the tokens of their texts. -/
structure ReadAlike (lang : Language) (source source' : String)
    (r r' : Except SyntaxError α) : Prop where
  ok_iff : ∀ x, r = .ok x ↔ r' = .ok x
  error : ∀ e, r = .error e → ∃ e' before t after before' t' after', r' = .error e' ∧
    e'.message = e.message ∧ e.PointsAt lang source before t after ∧
      e'.PointsAt lang source' before' t' after' ∧ before.length = before'.length

theorem read_of_ok {reader : Reader α} {x : α} (h : reader.toEnd (lang.scan source) = .ok x) :
    lang.read reader source = .ok x := by
  simp only [read, TokenStream.ofText, h]

theorem read_of_error {reader : Reader α} {e : ParseFailure}
    (h : reader.toEnd (lang.scan source) = .error e) :
    lang.read reader source =
      .error ({ TokenStream.ofText lang source with pending := e.rest }.error e.message) := by
  simp only [read, TokenStream.ofText, h]

theorem read_alike {reader : Reader α} (hreader : Uniform reader)
    (h : List.Forall₂ Token.Alike (lang.scan source) (lang.scan source')) :
    ReadAlike lang source source' (lang.read reader source) (lang.read reader source') := by
  rcases hreader.toEnd h with ⟨x, hx, hx'⟩ | ⟨e, e', n, he, he', hmessage, hrest, hrest'⟩
  · rw [read_of_ok hx, read_of_ok hx']
    exact ⟨fun _ => Iff.rfl, fun e he => by cases he⟩
  · rw [read_of_error he, read_of_error he']
    refine ⟨fun x => by simp, ?_⟩
    rintro _ ⟨⟩
    -- the tokens before the error are those that both runs have passed
    have hsplit : lang.scan source = (lang.scan source).take n ++ e.rest := by
      rw [hrest, List.take_append_drop]
    have hsplit' : lang.scan source' = (lang.scan source').take n ++ e'.rest := by
      rw [hrest', List.take_append_drop]
    obtain ⟨after, hpoints⟩ := TokenStream.pointsAt_error hsplit e.message
    obtain ⟨after', hpoints'⟩ := TokenStream.pointsAt_error hsplit' e'.message
    refine ⟨_, _, _, after, _, _, after', rfl, hmessage.symm, hpoints, hpoints', ?_⟩
    rw [List.length_take, List.length_take, h.length_eq]

end Language

/-- Is a token of the kind a spelling of a lexeme? Commas and brackets never are. -/
def TokenKind.isSpelling : TokenKind → Bool
  | .operator _ => true
  | .entails => true
  | _ => false

/-- The tokens are the same, or they are spellings of the same lexeme. -/
def Token.SameLexeme (lang : Language) (t u : Token) : Prop :=
  t.kind = u.kind ∧ t.lexeme = u.lexeme ∨
    t.kind.isSpelling = true ∧ u.kind.isSpelling = true ∧
      lang.lookup t.lexeme = lang.lookup u.lexeme

instance (lang : Language) (t u : Token) : Decidable (t.SameLexeme lang u) :=
  inferInstanceAs (Decidable (_ ∨ _))

namespace Language

variable {lang : Language} {source source' : String} {t u : Token}

/-- A spelling is what its lexeme is. -/
theorem kind_eq_of_isSpelling (ht : t ∈ lang.scan source) (h : t.kind.isSpelling = true) :
    ∃ l, lang.lookup t.lexeme = some l ∧ t.kind = l.tokenKind := by
  obtain ⟨w, p, hcuts, rfl⟩ := exists_of_mem_scanFrom ht
  refine exists_lookup_of_kindOf hcuts.ne_nil ?_
  intro c hc
  -- the first character alone makes no spelling
  have hkind : (TokenKind.ofChar c).isSpelling = true := by
    rw [hc]
    exact h
  cases hchar : TokenKind.ofChar c with
  | operator op => exact (ofChar_ne c).1 op hchar
  | entails => exact (ofChar_ne c).2 hchar
  | _ =>
    rw [hchar] at hkind
    cases hkind

theorem alike_of_sameLexeme (ht : t ∈ lang.scan source) (hu : u ∈ lang.scan source')
    (h : t.SameLexeme lang u) : t.Alike u := by
  rcases h with ⟨hkind, hlexeme⟩ | ⟨htkind, hukind, hlookup⟩
  · exact ⟨hkind, fun _ => hlexeme⟩
  · obtain ⟨l, hl, hlkind⟩ := kind_eq_of_isSpelling ht htkind
    obtain ⟨l', hl', hlkind'⟩ := kind_eq_of_isSpelling hu hukind
    obtain rfl : l = l' := Option.some.inj (hl.symm.trans (hlookup.trans hl'))
    refine ⟨hlkind.trans hlkind'.symm, ?_⟩
    intro hsymbol
    rw [hsymbol] at htkind
    cases htkind

/-- **Reading depends on lexemes.** If the tokens of two texts are the same one by one, or spellings
    of the same lexeme, then the texts are read alike, as formulas and as sequents, with symbols of
    either kind: both are accepted with the same result, or both are rejected with the same message,
    and the errors stand at tokens with the same number of tokens before them. -/
theorem parse_respelled
    (h : List.Forall₂ (Token.SameLexeme lang) (lang.scan source) (lang.scan source'))
    (kind : SymbolKind) :
    ReadAlike lang source source' (lang.parseFormula kind source)
        (lang.parseFormula kind source') ∧
      ReadAlike lang source source' (lang.parseSequent kind source)
        (lang.parseSequent kind source') := by
  have halike : List.Forall₂ Token.Alike (lang.scan source) (lang.scan source') := by
    obtain ⟨hlength, hpairs⟩ := List.forall₂_iff_zip.mp h
    refine List.forall₂_iff_zip.mpr ⟨hlength, ?_⟩
    intro t u htu
    obtain ⟨ht, hu⟩ := List.of_mem_zip htu
    exact alike_of_sameLexeme ht hu (hpairs htu)
  exact ⟨read_alike (Reader.expression_uniform kind) halike,
    read_alike (Reader.sequent_uniform kind) halike⟩

/-- A premise that opens a bracket and does not close it, in two spellings. It is read a second time,
    as a sequent in brackets, and both errors stand after nine tokens, in different columns. -/
theorem parse_respelled_unclosed :
    List.Forall₂ (Token.SameLexeme .horseshoe) (scan .horseshoe "(A > B |- ~C, D |- E")
        (scan .horseshoe "(A ⊃ B ⊦ ¬C, D ⊦ E") ∧
      parseSequent .horseshoe .proposition "(A > B |- ~C, D |- E" =
        .error ⟨"')' expected.", 0, 16, "(A > B |- ~C, D |- E"⟩ ∧
      parseSequent .horseshoe .proposition "(A ⊃ B ⊦ ¬C, D ⊦ E" =
        .error ⟨"')' expected.", 0, 15, "(A ⊃ B ⊦ ¬C, D ⊦ E"⟩ ∧
      ∃ before t after before' t' after',
        SyntaxError.PointsAt ⟨"')' expected.", 0, 16, "(A > B |- ~C, D |- E"⟩ .horseshoe
          "(A > B |- ~C, D |- E" before t after ∧
        SyntaxError.PointsAt ⟨"')' expected.", 0, 15, "(A ⊃ B ⊦ ¬C, D ⊦ E"⟩ .horseshoe
          "(A ⊃ B ⊦ ¬C, D ⊦ E" before' t' after' ∧
        before.length = before'.length := by
  have hsame : List.Forall₂ (Token.SameLexeme .horseshoe) (scan .horseshoe "(A > B |- ~C, D |- E")
      (scan .horseshoe "(A ⊃ B ⊦ ¬C, D ⊦ E") := by decide +kernel
  have hparse : parseSequent .horseshoe .proposition "(A > B |- ~C, D |- E" =
      .error ⟨"')' expected.", 0, 16, "(A > B |- ~C, D |- E"⟩ := by rfl
  have hparse' : parseSequent .horseshoe .proposition "(A ⊃ B ⊦ ¬C, D ⊦ E" =
      .error ⟨"')' expected.", 0, 15, "(A ⊃ B ⊦ ¬C, D ⊦ E"⟩ := by rfl
  obtain ⟨e', before, t, after, before', t', after', he', -, hpoints, hpoints', hlength⟩ :=
    (parse_respelled hsame .proposition).2.error _ hparse
  rw [hparse'] at he'
  cases he'
  exact ⟨hsame, hparse, hparse', before, t, after, before', t', after', hpoints, hpoints', hlength⟩

end Language

end NaturalDeduction
