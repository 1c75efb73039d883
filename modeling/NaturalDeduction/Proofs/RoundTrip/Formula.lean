import NaturalDeduction.Proofs.Parsing.Exact
import NaturalDeduction.Proofs.Rendering
import NaturalDeduction.Proofs.Scanning

/-! # Reading what was written

    A written formula is read as the same formula if its text is cut into
    tokens where it was put together. Brackets, blanks and commas always are
    tokens of their own or none, so that only a spelling beside what it is
    written next to can go wrong: an operator with its operand.

    * **Languages**: what is asked of the spellings of a language and of the
      atoms, so that all of this holds (`Legible`), except for one case.
    * **The exception**: a prefix operator that is spelled by a sign of negation
      is written right before its operand. If that is an atom that starts with
      another sign, the two become one token (`Glued`).
    * **Tokens**: the tokens of a written formula derive the formula, or hold
      fewer prefix operators than it (`Reread`). In the second case they cannot
      derive it.
-/

namespace NaturalDeduction

open Grammar

/-! ### Formulas of a language -/

/-- The formula is made of some operators, each with as many operands as it has room for, and of
    some atoms. -/
inductive Formula.Over (operators : Operator → Prop) (atoms : Symbol → Prop) : Formula → Prop where
  | atom {s : Symbol} : atoms s → Over operators atoms (.atom s)
  | app {op : Operator} {fs : List Formula} :
      operators op → fs.length = op.fixity.arity → (∀ f ∈ fs, Over operators atoms f) →
        Over operators atoms (.app op fs)

theorem Formula.Over.unary {operators : Operator → Prop} {atoms : Symbol → Prop} {op : Operator}
    {f : Formula} (hop : operators op) (harity : op.fixity.arity = 1)
    (hf : f.Over operators atoms) : (Formula.app op [f]).Over operators atoms :=
  .app hop harity.symm (by simpa using hf)

theorem Formula.Over.binary {operators : Operator → Prop} {atoms : Symbol → Prop} {op : Operator}
    {f g : Formula} (hop : operators op) (harity : op.fixity.arity = 2)
    (hf : f.Over operators atoms) (hg : g.Over operators atoms) :
    (Formula.app op [f, g]).Over operators atoms :=
  .app hop harity.symm (by simpa using ⟨hf, hg⟩)

/-- What holds of the atoms, and of an operator with its operands if it holds of these, holds of the
    formula. -/
@[elab_as_elim]
theorem Formula.Over.shapes {operators : Operator → Prop} {atoms : Symbol → Prop}
    {motive : (f : Formula) → f.Over operators atoms → Prop}
    (atom : ∀ {s} (hs : atoms s), motive (.atom s) (.atom hs))
    (prefixed : ∀ {name g} (_ : operators ⟨name, .prefixed⟩) (hg : g.Over operators atoms)
      (h : (Formula.app ⟨name, .prefixed⟩ [g]).Over operators atoms), motive g hg → motive _ h)
    (postfixed : ∀ {name g} (_ : operators ⟨name, .postfixed⟩) (hg : g.Over operators atoms)
      (h : (Formula.app ⟨name, .postfixed⟩ [g]).Over operators atoms), motive g hg → motive _ h)
    (infixed : ∀ {name g k} (_ : operators ⟨name, .infixed⟩) (hg : g.Over operators atoms)
      (hk : k.Over operators atoms)
      (h : (Formula.app ⟨name, .infixed⟩ [g, k]).Over operators atoms),
        motive g hg → motive k hk → motive _ h)
    {f : Formula} (hf : f.Over operators atoms) : motive f hf := by
  induction hf with
  | atom hs => exact atom hs
  | @app op fs hop hlen hfs ih =>
    obtain ⟨name, fixity⟩ := op
    -- the fixity says how many operands there are
    match fixity, fs, hlen with
    | .prefixed, [g], _ => exact prefixed hop _ _ (ih g (by simp))
    | .postfixed, [g], _ => exact postfixed hop _ _ (ih g (by simp))
    | .infixed, [g, k], _ => exact infixed hop _ _ _ (ih g (by simp)) (ih k (by simp))

/-- The operators that a language has spellings for. -/
def Language.operators (lang : Language) : List Operator :=
  lang.lexemes.filterMap Lexeme.operator?

theorem mem_operators_of_lookup {lang : Language} {l : Lexeme} {spelling : String}
    {op : Operator}
    (h : lang.lookup spelling = some l) (hop : l.operator? = some op) : op ∈ lang.operators :=
  List.mem_filterMap.mpr ⟨l, List.mem_of_find?_eq_some h, hop⟩

/-- A spelling that is one token whatever comes next: a name with a colon, or a single character
    that is part of no name and no run of signs. -/
def isDetached : List Char → Bool
  | [] => false
  | c :: tail =>
    if isNameChar c then tail.getLast? == some ':' && tail.dropLast.all isNameChar
    else !isBlank c && !isSign c && tail.isEmpty

/-- A spelling that is a single sign of negation. -/
def isNegationSign : List Char → Bool
  | [c] => isNegation c
  | _ => false

/-- What is written in a style for operators and for entailment is one token each, of the right kind,
    whatever comes next. The exception are signs of negation before another sign. -/
structure Language.Spelled (lang : Language) (style : Style) : Prop where
  cuts_spelling : ∀ op ∈ lang.operators, Cuts (lang.spelling op style).toList []
  kindOf_spelling : ∀ op ∈ lang.operators,
    lang.kindOf (lang.spelling op style).toList = .operator op
  prefixed : ∀ op ∈ lang.operators, op.fixity = .prefixed →
    isDetached (lang.spelling op style).toList = true ∨
      isNegationSign (lang.spelling op style).toList = true
  negation : ∀ l ∈ lang.lexemes, l.category = .operator .prefixed → ∀ s ∈ l.spellings,
    s.toList.head?.any isNegation = true → s.toList.tail = []
  cuts_entailment : Cuts (lang.entailment.spelling style).toList []
  kindOf_entailment : lang.kindOf (lang.entailment.spelling style).toList = .entails

/-- A sign of negation together with other characters spells no prefix operator. -/
theorem Language.Spelled.kindOf_glued {lang : Language} {style : Style} (h : lang.Spelled style)
    {c : Char} {w : List Char} (name : String) (hc : isNegation c = true) (hw : w ≠ []) :
    lang.kindOf (c :: w) ≠ .operator ⟨name, .prefixed⟩ := by
  intro hkind
  obtain ⟨l, hlookup, hop⟩ := exists_lookup_of_operator hkind
  have hcategory : l.category = .operator .prefixed := (Lexeme.operator?_eq_some.mp hop).2
  have hmem : String.ofList (c :: w) ∈ l.spellings := by simpa using List.find?_some hlookup
  have hnil := h.negation l (List.mem_of_find?_eq_some hlookup) hcategory _ hmem (by simpa using hc)
  rw [String.toList_ofList] at hnil
  exact hw hnil

/-- Atoms are one token each too. -/
structure Legible (lang : Language) (style : Style) (atoms : Symbol → Prop) : Prop
    extends lang.Spelled style where
  cuts_atom : ∀ s, atoms s → Cuts s.name.toList []
  kindOf_atom : ∀ s, atoms s → lang.kindOf s.name.toList = .symbol
  /-- Where there are postfix operators, atoms are names that end before them. -/
  postfixed : ∀ op ∈ lang.operators, op.fixity = .postfixed → ∀ s, atoms s →
    (∀ rest, Cuts s.name.toList ((lang.spelling op style).toList ++ rest)) ∧
      ∀ c ∈ s.name.toList.head?, isSign c = false

/-- A prefix operator is spelled by a sign of negation, and its operand is an atom that starts with
    another sign. -/
def Fuses (lang : Language) (style : Style) (op : Operator) (fs : List Formula) : Prop :=
  op.fixity = .prefixed ∧ isNegationSign (lang.spelling op style).toList = true ∧
    ∃ s, fs = [.atom s] ∧ ∃ c ∈ s.name.toList.head?, isSign c = true ∧ isNegation c = false

/-- Somewhere in the formula a sign of negation is written right before another sign. -/
inductive Formula.Glued (lang : Language) (style : Style) : Formula → Prop where
  | here {op : Operator} {fs : List Formula} : Fuses lang style op fs → Glued lang style (.app op fs)
  | inside {op : Operator} {fs : List Formula} {f : Formula} :
      f ∈ fs → Glued lang style f → Glued lang style (.app op fs)

/-- Signs are glued in no formula whose operators are never glued to its atoms. -/
theorem Formula.Over.not_glued {lang : Language} {style : Style} {operators : Operator → Prop}
    {atoms : Symbol → Prop} {f : Formula} (hf : f.Over operators atoms)
    (hfuses : ∀ op s, operators op → atoms s → ¬ Fuses lang style op [.atom s]) :
    ¬ f.Glued lang style := by
  intro hglued
  induction hglued with
  | here hhere =>
    obtain ⟨s, rfl⟩ : ∃ s, _ = [Formula.atom s] := hhere.2.2.imp fun _ h => h.1
    cases hf with
    | app hop _ hfs =>
      cases hfs _ (List.mem_singleton.mpr rfl) with
      | atom hs => exact hfuses _ s hop hs hhere
  | inside hmem _ ih =>
    cases hf with
    | app _ _ hfs => exact ih (hfs _ hmem)

/-! ### Counting prefix operators -/

/-- Is the token a prefix operator? -/
def Token.isPrefix (t : Token) : Bool :=
  match t.kind with
  | .operator ⟨_, .prefixed⟩ => true
  | _ => false

theorem Token.exists_of_isPrefix {t : Token} (h : t.isPrefix = true) :
    ∃ name, t.kind = .operator ⟨name, .prefixed⟩ := by
  unfold Token.isPrefix at h
  split at h
  · next name hkind => exact ⟨name, hkind⟩
  · cases h

/-- The number of prefix operators among tokens. -/
def prefixTokens (ts : List Token) : Nat := ts.countP Token.isPrefix

mutual
/-- The number of prefix operators in a formula. -/
def Formula.prefixes : Formula → Nat
  | .atom _ => 0
  | .app op fs => (if op.fixity = .prefixed then 1 else 0) + Formula.prefixesAll fs

/-- The number of prefix operators in the formulas of a list. -/
def Formula.prefixesAll : List Formula → Nat
  | [] => 0
  | f :: fs => f.prefixes + Formula.prefixesAll fs
end

section

variable {lang : Language} {style : Style} {kind : SymbolKind} {part part' : Part}
  {f g : Formula} {ts us : List Token} {t t' : Token} {shape : Bracket} {name : String}

@[simp] theorem prefixTokens_nil : prefixTokens [] = 0 := rfl

@[simp] theorem prefixTokens_cons (t : Token) (ts : List Token) :
    prefixTokens (t :: ts) = (if t.isPrefix = true then 1 else 0) + prefixTokens ts := by
  unfold prefixTokens
  rw [List.countP_cons]
  omega

@[simp] theorem prefixTokens_append (ts us : List Token) :
    prefixTokens (ts ++ us) = prefixTokens ts + prefixTokens us := List.countP_append

/-- A derivation uses one token for each prefix operator. -/
theorem prefixTokens_of_derives (h : Derives kind part ts f) : prefixTokens ts = f.prefixes := by
  induction h with
  | symbol ht => simp [Token.isPrefix, ht, Formula.prefixes]
  | group ht _ ht' ih => simp [Token.isPrefix, ht, ht', ih]
  | bare _ ih => exact ih
  | postfixed _ ht ih =>
    simp [Token.isPrefix, ht, ih, Formula.prefixes, Formula.prefixesAll]
  | chain _ ih => exact ih
  | prefixed ht _ ih =>
    simp [Token.isPrefix, ht, ih, Formula.prefixes, Formula.prefixesAll]
  | term _ ih => exact ih
  | infixed _ ht _ ih ih' =>
    simp [Token.isPrefix, ht, ih, ih', Formula.prefixes, Formula.prefixesAll]

/-! ### What the tokens of a written formula are -/

/-- The tokens derive the formula. Or two signs are glued in the formula, and the tokens hold fewer
    prefix operators than the formula. -/
def Reread (lang : Language) (style : Style) (kind : SymbolKind) (part : Part) (f : Formula)
    (ts : List Token) : Prop :=
  ¬ f.Glued lang style ∧ Derives kind part ts f ∨
    f.Glued lang style ∧ prefixTokens ts < f.prefixes

namespace Reread

theorem prefixTokens_le (h : Reread lang style kind part f ts) : prefixTokens ts ≤ f.prefixes := by
  rcases h with ⟨_, h⟩ | ⟨_, h⟩
  · exact Nat.le_of_eq (prefixTokens_of_derives h)
  · exact Nat.le_of_lt h

theorem derives (h : Reread lang style kind part f ts) (hnot : ¬ f.Glued lang style) :
    Derives kind part ts f := by
  rcases h with ⟨_, h⟩ | ⟨hglued, _⟩
  · exact h
  · exact absurd hglued hnot

theorem imp (h : Reread lang style kind part f ts)
    (himp : Derives kind part ts f → Derives kind part' ts f) :
    Reread lang style kind part' f ts := by
  rcases h with ⟨hnot, h⟩ | h
  · exact .inl ⟨hnot, himp h⟩
  · exact .inr h

theorem group (ht : t.kind = .opening shape) (h : Reread lang style kind .expression f ts)
    (ht' : t'.kind = .closing shape) :
    Reread lang style kind .primary f (t :: (ts ++ [t'])) := by
  rcases h with ⟨hnot, h⟩ | ⟨hglued, hlt⟩
  · exact .inl ⟨hnot, .group ht h ht'⟩
  · refine .inr ⟨hglued, ?_⟩
    simpa [Token.isPrefix, ht, ht'] using hlt

theorem prefixed (ht : t.kind = .operator ⟨name, .prefixed⟩)
    (hfuses : ¬ Fuses lang style ⟨name, .prefixed⟩ [f]) (h : Reread lang style kind .term f ts) :
    Reread lang style kind .term (.app ⟨name, .prefixed⟩ [f]) (t :: ts) := by
  rcases h with ⟨hnot, h⟩ | ⟨hglued, hlt⟩
  · refine .inl ⟨?_, .prefixed ht h⟩
    intro hglued
    cases hglued with
    | here hfuse => exact hfuses hfuse
    | inside hmem hinside =>
      rw [List.mem_singleton.mp hmem] at hinside
      exact hnot hinside
  · refine .inr ⟨.inside (List.mem_singleton.mpr rfl) hglued, ?_⟩
    simpa [Token.isPrefix, ht, Formula.prefixes, Formula.prefixesAll] using hlt

theorem postfixed (h : Reread lang style kind .chain f ts)
    (ht : t.kind = .operator ⟨name, .postfixed⟩) :
    Reread lang style kind .chain (.app ⟨name, .postfixed⟩ [f]) (ts ++ [t]) := by
  rcases h with ⟨hnot, h⟩ | ⟨hglued, hlt⟩
  · refine .inl ⟨?_, .postfixed h ht⟩
    intro hglued
    cases hglued with
    | here hfuse => exact absurd hfuse.1 (by simp)
    | inside hmem hinside =>
      rw [List.mem_singleton.mp hmem] at hinside
      exact hnot hinside
  · refine .inr ⟨.inside (List.mem_singleton.mpr rfl) hglued, ?_⟩
    simpa [Token.isPrefix, ht, Formula.prefixes, Formula.prefixesAll] using hlt

theorem infixed (h : Reread lang style kind .term f ts) (ht : t.kind = .operator ⟨name, .infixed⟩)
    (h' : Reread lang style kind .term g us) :
    Reread lang style kind .expression (.app ⟨name, .infixed⟩ [f, g]) (ts ++ t :: us) := by
  have hle := h.prefixTokens_le
  have hle' := h'.prefixTokens_le
  have hcount : prefixTokens (ts ++ t :: us) = prefixTokens ts + prefixTokens us := by
    simp [Token.isPrefix, ht]
  have hprefixes : (Formula.app ⟨name, .infixed⟩ [f, g]).prefixes = f.prefixes + g.prefixes := by
    simp [Formula.prefixes, Formula.prefixesAll]
  -- signs are glued in the formula if they are in one of the operands
  rcases h with ⟨hnot, h⟩ | ⟨hglued, hlt⟩
  · rcases h' with ⟨hnot', h'⟩ | ⟨hglued, hlt⟩
    · refine .inl ⟨?_, .infixed h ht h'⟩
      intro hglued
      cases hglued with
      | here hfuse => exact absurd hfuse.1 (by simp)
      | inside hmem hinside =>
        rcases List.mem_pair.mp hmem with rfl | rfl
        · exact hnot hinside
        · exact hnot' hinside
    · exact .inr ⟨.inside (List.mem_pair.mpr (.inr rfl)) hglued, by omega⟩
  · exact .inr ⟨.inside (List.mem_pair.mpr (.inl rfl)) hglued, by omega⟩

end Reread

end

/-! ### Texts and what comes next -/

section Texts

variable {lang : Language} {text text' rest w : List Char} {P P' : List Token → Prop}

/-- The text is cut into tokens of its own where `rest` comes next, and they have a property. -/
def ScansTo (lang : Language) (text rest : List Char) (P : List Token → Prop) : Prop :=
  ∀ p, ∃ ts p', lang.scanFrom 0 p (text ++ rest) = ts ++ lang.scanFrom 0 p' rest ∧ P ts

theorem ScansTo.imp (h : ScansTo lang text rest P) (himp : ∀ ts, P ts → P' ts) :
    ScansTo lang text rest P' := by
  intro p
  obtain ⟨ts, p', hscan, hts⟩ := h p
  exact ⟨ts, p', hscan, himp ts hts⟩

theorem ScansTo.append (h : ScansTo lang text (text' ++ rest) P)
    (h' : ScansTo lang text' rest P') :
    ScansTo lang (text ++ text') rest fun vs => ∃ ts us, vs = ts ++ us ∧ P ts ∧ P' us := by
  intro p
  obtain ⟨ts, p', hscan, hts⟩ := h p
  obtain ⟨us, p'', hscan', hus⟩ := h' p'
  refine ⟨ts ++ us, p'', ?_, ts, us, rfl, hts, hus⟩
  rw [List.append_assoc, hscan, hscan', List.append_assoc]

theorem scansTo_token (h : Cuts w rest) (hP : ∀ p, P [lang.token w p]) : ScansTo lang w rest P :=
  fun p => ⟨_, _, scanFrom_append h p, hP p⟩

theorem scansTo_blank (rest : List Char) : ScansTo lang [' '] rest (· = []) :=
  fun p => ⟨[], _, scanFrom_blank rest p, rfl⟩

theorem scansTo_opening (rest : List Char) :
    ScansTo lang ['('] rest fun ts => ∃ t, ts = [t] ∧ t.kind = .opening .round :=
  scansTo_token (cuts_glyph (by decide) (by decide) (by decide) rest) fun _ => ⟨_, rfl, rfl⟩

theorem scansTo_closing (rest : List Char) :
    ScansTo lang [')'] rest fun ts => ∃ t, ts = [t] ∧ t.kind = .closing .round :=
  scansTo_token (cuts_glyph (by decide) (by decide) (by decide) rest) fun _ => ⟨_, rfl, rfl⟩

theorem stops_cons {c : Char} (hname : isNameChar c = false) (hsign : isSign c = false)
    (rest : List Char) : Stops (c :: rest) := by
  intro d hd
  cases hd
  exact ⟨hname, hsign⟩

theorem stops_blank (rest : List Char) : Stops (' ' :: rest) :=
  stops_cons (by decide) (by decide) rest

theorem stops_closing (rest : List Char) : Stops (')' :: rest) :=
  stops_cons (by decide) (by decide) rest

theorem cuts_of_isDetached (h : isDetached w = true) (rest : List Char) : Cuts w rest := by
  match w, h with
  | c :: tail, h =>
    simp only [isDetached] at h
    split at h
    · next hname =>
      simp only [Bool.and_eq_true, beq_iff_eq, List.all_eq_true] at h
      obtain ⟨hlast, hrun⟩ := h
      have htail : tail = tail.dropLast ++ [':'] := by
        obtain ⟨run, rfl⟩ := List.getLast?_eq_some_iff.mp hlast
        simp
      rw [htail]
      exact cuts_name_colon hname hrun rest
    · next hname =>
      simp only [Bool.and_eq_true, Bool.not_eq_true', List.isEmpty_iff] at h
      obtain ⟨⟨hblank, hsign⟩, rfl⟩ := h
      exact cuts_glyph hblank (by simpa using hname) hsign rest

theorem isSign_head_of_isDetached (h : isDetached w = true) : ∀ c ∈ w.head?, isSign c = false := by
  match w, h with
  | c :: tail, h =>
    intro d hd
    cases hd
    simp only [isDetached] at h
    split at h
    · next hname =>
      cases hsign : isSign c with
      | false => rfl
      | true => simp [isNameChar_of_isSign hsign] at hname
    · simp only [Bool.and_eq_true, Bool.not_eq_true'] at h
      exact h.1.2

theorem eq_of_isNegationSign (h : isNegationSign w = true) : ∃ c, w = [c] ∧ isNegation c = true := by
  match w, h with
  | [c], h => exact ⟨c, rfl, h⟩

end Texts

/-! ### Written formulas -/

/-- The part of the grammar that a formula is when it is written without brackets. -/
def Formula.part (f : Formula) : Part := if f.isInfix then .expression else .term

section Written

variable {lang : Language} {style : Style} {kind : SymbolKind} {atoms : Symbol → Prop}
  {f g : Formula} {op : Operator} {name : String} {rest : List Char}

theorem written_true (lang : Language) (style : Style) (f : Formula) :
    lang.written style true f = ['('] ++ (lang.written style false f ++ [')']) := by
  cases f <;> rfl

/-- The text of a formula is cut into tokens that derive it, or that hold fewer prefix operators,
    before anything that stops the last of them. -/
def Rereads (lang : Language) (style : Style) (kind : SymbolKind) (f : Formula) : Prop :=
  ∀ rest, Stops rest →
    ScansTo lang (lang.written style false f) rest (Reread lang style kind f.part f)

theorem Rereads.expression (h : Rereads lang style kind f) (hrest : Stops rest) :
    ScansTo lang (lang.written style false f) rest (Reread lang style kind .expression f) := by
  refine (h rest hrest).imp fun ts hts => hts.imp fun hderives => ?_
  unfold Formula.part at hderives
  split at hderives
  · exact hderives
  · exact .term hderives

/-- In brackets, a formula is read whatever comes next. -/
theorem Rereads.bracketed (h : Rereads lang style kind f) (rest : List Char) :
    ScansTo lang (lang.written style true f) rest (Reread lang style kind .primary f) := by
  rw [written_true]
  have hinner := h.expression (stops_closing rest)
  refine ((scansTo_opening _).append (hinner.append (scansTo_closing rest))).imp ?_
  rintro _ ⟨_, _, rfl, ⟨t, rfl, ht⟩, ts, _, rfl, hts, t', rfl, ht'⟩
  exact hts.group ht ht'

/-- As an operand of a prefix or infix operator, a formula is a term. -/
theorem Rereads.operand (h : Rereads lang style kind f) (hrest : Stops rest) :
    ScansTo lang (lang.written style f.isInfix f) rest (Reread lang style kind .term f) := by
  cases hinfix : f.isInfix with
  | true =>
    exact (h.bracketed rest).imp fun ts hts => hts.imp fun hderives => .chain (.bare hderives)
  | false =>
    refine (h rest hrest).imp fun ts hts => hts.imp fun hderives => ?_
    simpa [Formula.part, hinfix] using hderives

theorem ScansTo.spelling (hlang : Legible lang style atoms) (hop : op ∈ lang.operators)
    (hcuts : Cuts (lang.spelling op style).toList rest) :
    ScansTo lang (lang.spelling op style).toList rest
      fun ts => ∃ t, ts = [t] ∧ t.kind = .operator op :=
  scansTo_token hcuts fun _ => ⟨_, rfl, hlang.kindOf_spelling op hop⟩

theorem derives_atom {s : Symbol} {t : Token} (ht : t.kind = .symbol) (hname : t.lexeme = s.name)
    (hs : s.kind = kind) : Derives kind .primary [t] (.atom s) := by
  have hderives : Derives kind .primary [t] (.atom ⟨t.lexeme, kind⟩) := .symbol ht
  subst hs
  rw [hname] at hderives
  exact hderives

theorem not_glued_atom (s : Symbol) : ¬ (Formula.atom s).Glued lang style := by
  intro h
  cases h

theorem scansTo_atom (hlang : Legible lang style atoms) {s : Symbol} (hs : atoms s)
    (hkind : s.kind = kind) (hcuts : Cuts s.name.toList rest) :
    ScansTo lang s.name.toList rest (Reread lang style kind .chain (.atom s)) := by
  refine scansTo_token hcuts fun p => .inl ⟨not_glued_atom s, .bare ?_⟩
  exact derives_atom (hlang.kindOf_atom s hs) String.ofList_toList hkind

theorem head_append {text : List Char} (h : text ≠ []) (rest : List Char) :
    (text ++ rest).head? = text.head? := by
  match text, h with
  | c :: text, _ => rfl

theorem isSign_head_bracketed (rest : List Char) :
    ∀ c ∈ (lang.written style true f ++ rest).head?, isSign c = false := by
  intro c hc
  rw [written_true] at hc
  cases hc
  decide

theorem written_prefixed (lang : Language) (style : Style) (brackets : Bool) (name : String)
    (g : Formula) :
    lang.written style brackets (.app ⟨name, .prefixed⟩ [g]) =
      NaturalDeduction.bracketed brackets
        ((lang.spelling ⟨name, .prefixed⟩ style).toList ++ lang.written style g.isInfix g) := rfl

theorem written_postfixed (lang : Language) (style : Style) (brackets : Bool) (name : String)
    (g : Formula) :
    lang.written style brackets (.app ⟨name, .postfixed⟩ [g]) =
      NaturalDeduction.bracketed brackets
        (lang.written style (!g.isAtomic) g ++ (lang.spelling ⟨name, .postfixed⟩ style).toList) :=
  rfl

theorem written_infixed (lang : Language) (style : Style) (brackets : Bool) (name : String)
    (f g : Formula) :
    lang.written style brackets (.app ⟨name, .infixed⟩ [f, g]) =
      NaturalDeduction.bracketed brackets
        (lang.written style f.isInfix f ++ ([' '] ++
          ((lang.spelling ⟨name, .infixed⟩ style).toList ++ ([' '] ++
            lang.written style g.isInfix g)))) := rfl

/-- An operand that is written right after a sign of negation does not start with another sign,
    unless the two are glued. -/
theorem isNegation_head_operand (hlang : Legible lang style atoms)
    (hg : g.Over (· ∈ lang.operators) atoms) (hop : op.fixity = .prefixed)
    (hnegation : isNegationSign (lang.spelling op style).toList = true)
    (hfuses : ¬ Fuses lang style op [g]) (rest : List Char) :
    ∀ c ∈ (lang.written style g.isInfix g ++ rest).head?,
      isSign c = true → isNegation c = true := by
  intro c hc hsign
  -- a name or a spelling comes first, or a bracket
  induction hg using Formula.Over.shapes with
  | @atom s hs =>
    replace hc : c ∈ (s.name.toList ++ rest).head? := hc
    rw [head_append (hlang.cuts_atom s hs).ne_nil] at hc
    by_cases hc' : isNegation c = true
    · exact hc'
    · exact absurd ⟨hop, hnegation, s, rfl, c, hc, hsign, by simpa using hc'⟩ hfuses
  | @prefixed name g hop' _ _ _ =>
    replace hc : c ∈ ((lang.spelling ⟨name, .prefixed⟩ style).toList ++
      lang.written style g.isInfix g ++ rest).head? := hc
    rw [List.append_assoc, head_append (hlang.cuts_spelling _ hop').ne_nil] at hc
    rcases hlang.prefixed _ hop' rfl with hdetached | hsign'
    · simp [isSign_head_of_isDetached hdetached c hc] at hsign
    · obtain ⟨d, hd, hd'⟩ := eq_of_isNegationSign hsign'
      rw [hd] at hc
      cases hc
      exact hd'
  | @postfixed name g hop' hg _ _ =>
    cases hg with
    | @atom s hs =>
      replace hc : c ∈ (s.name.toList ++ (lang.spelling ⟨name, .postfixed⟩ style).toList ++
        rest).head? := hc
      rw [List.append_assoc, head_append (hlang.cuts_atom s hs).ne_nil] at hc
      simp [(hlang.postfixed _ hop' rfl s hs).2 c hc] at hsign
    | @app op' fs _ _ _ =>
      replace hc : c ∈ (lang.written style true (.app op' fs) ++
        (lang.spelling ⟨name, .postfixed⟩ style).toList ++ rest).head? := hc
      rw [List.append_assoc] at hc
      simp [isSign_head_bracketed _ c hc] at hsign
  | infixed _ _ _ _ _ _ => simp [isSign_head_bracketed rest c hc] at hsign

/-- A prefix operator ends before its operand, unless the two are glued. -/
theorem cuts_prefixed (hlang : Legible lang style atoms) (hop : op ∈ lang.operators)
    (hfix : op.fixity = .prefixed) (hg : g.Over (· ∈ lang.operators) atoms)
    (hfuses : ¬ Fuses lang style op [g]) (rest : List Char) :
    Cuts (lang.spelling op style).toList (lang.written style g.isInfix g ++ rest) := by
  rcases hlang.prefixed op hop hfix with hdetached | hnegation
  · exact cuts_of_isDetached hdetached _
  · have hhead := isNegation_head_operand hlang hg hfix hnegation hfuses rest
    obtain ⟨c, hc, hc'⟩ := eq_of_isNegationSign hnegation
    rw [hc]
    exact cuts_negation hc' hhead

/-- Where a sign of negation is glued to an atom, the two are one token, and that is no prefix
    operator. -/
theorem scansTo_glued (hlang : Legible lang style atoms) {s : Symbol} (hs : atoms s)
    (hfuses : Fuses lang style ⟨name, .prefixed⟩ [.atom s]) (hrest : Stops rest) :
    ScansTo lang (lang.written style false (.app ⟨name, .prefixed⟩ [.atom s])) rest
      (Reread lang style kind .term (.app ⟨name, .prefixed⟩ [.atom s])) := by
  have hglued : (Formula.app ⟨name, .prefixed⟩ [.atom s]).Glued lang style := .here hfuses
  obtain ⟨_, hnegation, s', hs', d, hd, hsign, hnot⟩ := hfuses
  cases hs'
  obtain ⟨c, hc, hc'⟩ := eq_of_isNegationSign hnegation
  obtain ⟨tail, htail⟩ := List.head?_eq_some_iff.mp hd
  have hcuts : Cuts (c :: d :: tail) [] :=
    cuts_glued hc' hsign hnot (htail ▸ hlang.cuts_atom s hs)
  have htext : lang.written style false (.app ⟨name, .prefixed⟩ [.atom s]) = c :: d :: tail := by
    rw [written_prefixed, hc]
    show [c] ++ s.name.toList = _
    rw [htail]
    rfl
  rw [htext]
  refine scansTo_token (hcuts.of_stops hrest) fun p => .inr ⟨hglued, ?_⟩
  have hplain : ¬ (lang.token (c :: d :: tail) p).isPrefix = true := by
    intro h
    obtain ⟨name', hkind⟩ := Token.exists_of_isPrefix h
    exact hlang.kindOf_glued name' hc' (by simp) hkind
  simp [hplain, Formula.prefixes, Formula.prefixesAll]

/-- Written formulas are read again, or lose prefix operators. -/
theorem rereads (hlang : Legible lang style atoms) (hkind : ∀ s, atoms s → s.kind = kind)
    (hf : f.Over (· ∈ lang.operators) atoms) : Rereads lang style kind f := by
  induction hf using Formula.Over.shapes with
  | @atom s hs =>
    intro rest hrest
    have hatom : ScansTo lang s.name.toList rest (Reread lang style kind .chain (.atom s)) :=
      scansTo_atom hlang hs (hkind s hs) ((hlang.cuts_atom s hs).of_stops hrest)
    exact hatom.imp fun ts hts => hts.imp .chain
  | @prefixed name g hop hg _ ih =>
    intro rest hrest
    by_cases hfuses : Fuses lang style ⟨name, .prefixed⟩ [g]
    · -- only an atom can be glued, so that nothing inside `g` is in question
      obtain ⟨s, hs⟩ : ∃ s, [g] = [.atom s] := hfuses.2.2.imp fun _ h => h.1
      cases hs
      cases hg with
      | atom hs => exact scansTo_glued hlang hs hfuses hrest
    · have hspelling := ScansTo.spelling hlang hop
        (cuts_prefixed hlang hop rfl hg hfuses rest)
      rw [written_prefixed]
      refine (hspelling.append (ih.operand hrest)).imp ?_
      rintro _ ⟨_, ts, rfl, ⟨t, rfl, ht⟩, hts⟩
      exact hts.prefixed ht hfuses
  | @postfixed name g hop hg _ ih =>
    intro rest hrest
    have hspelling := ScansTo.spelling hlang hop ((hlang.cuts_spelling _ hop).of_stops hrest)
    -- an atom must end before the spelling, and everything else is in brackets
    have hoperand : ScansTo lang (lang.written style (!g.isAtomic) g)
        ((lang.spelling ⟨name, .postfixed⟩ style).toList ++ rest)
          (Reread lang style kind .chain g) := by
      cases hg with
      | atom hs => exact scansTo_atom hlang hs (hkind _ hs) ((hlang.postfixed _ hop rfl _ hs).1 rest)
      | app _ _ _ => exact (ih.bracketed _).imp fun ts hts => hts.imp .bare
    rw [written_postfixed]
    refine (hoperand.append hspelling).imp ?_
    rintro _ ⟨ts, _, rfl, hts, t, rfl, ht⟩
    exact (hts.postfixed ht).imp .chain
  | @infixed name g k hop _ _ _ ihg ihk =>
    intro rest hrest
    have hspelling := ScansTo.spelling hlang hop
      ((hlang.cuts_spelling _ hop).of_stops (stops_blank (lang.written style k.isInfix k ++ rest)))
    have hright := (scansTo_blank _).append (ihk.operand hrest)
    have hmiddle := (scansTo_blank _).append (hspelling.append hright)
    rw [written_infixed]
    refine ((ihg.operand (stops_blank _)).append hmiddle).imp ?_
    rintro _ ⟨ts, _, rfl, hts, _, _, rfl, rfl, _, _, rfl, ⟨t, rfl, ht⟩, _, us, rfl, rfl, hus⟩
    exact hts.infixed ht hus

theorem stops_nil : Stops [] := by
  intro c hc
  cases hc

/-- What the tokens of a whole text are. -/
theorem ScansTo.scan {text : List Char} {P : List Token → Prop} (h : ScansTo lang text [] P) :
    P (lang.scan (String.ofList text)) := by
  obtain ⟨ts, p, hscan, hts⟩ := h .start
  rw [List.append_nil] at hscan
  have htokens : lang.scan (String.ofList text) = ts := by
    unfold Language.scan
    rw [String.toList_ofList, hscan]
    simp [Language.scanFrom]
  rwa [htokens]

/-- A formula is read back from its text exactly if no signs are glued in it. -/
theorem parseFormula_written_iff (hlang : Legible lang style atoms)
    (hkind : ∀ s, atoms s → s.kind = kind) (hf : f.Over (· ∈ lang.operators) atoms) :
    lang.parseFormula kind (String.ofList (lang.written style false f)) = .ok f ↔
      ¬ f.Glued lang style := by
  have hreread := ((rereads hlang hkind hf).expression stops_nil).scan
  rw [Language.parseFormula_eq_ok_iff]
  constructor
  · intro hderives hglued
    -- a derivation would need a token for each prefix operator
    rcases hreread with ⟨hnot, _⟩ | ⟨_, hlt⟩
    · exact hnot hglued
    · exact absurd (prefixTokens_of_derives hderives) (Nat.ne_of_lt hlt)
  · exact hreread.derives

end Written

end NaturalDeduction
