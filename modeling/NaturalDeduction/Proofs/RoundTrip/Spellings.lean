import NaturalDeduction.Language.Arrow
import NaturalDeduction.Proofs.RoundTrip.Formula

/-! # Languages with legible spellings

    A token is an operator, or the turnstile, only if its text is a spelling of
    the language. What is asked of spellings for reading written formulas back
    (`Language.Spelled`) can therefore be checked row by row, and holds of the
    horseshoe and the arrow language. It still holds with one more operator that
    is written after its operand, if no other operator has its name or spelling.
-/

namespace NaturalDeduction

namespace Language

variable {lang : Language} {style : Style} {l : Lexeme}

instance (lang : Language) (style : Style) : Decidable (lang.Spelled style) :=
  decidable_of_iff
    ((∀ op ∈ lang.operators, Cuts (lang.spelling op style).toList []) ∧
      (∀ op ∈ lang.operators, lang.kindOf (lang.spelling op style).toList = .operator op) ∧
      (∀ op ∈ lang.operators, op.fixity = .prefixed →
        isDetached (lang.spelling op style).toList = true ∨
          isNegationSign (lang.spelling op style).toList = true) ∧
      (∀ l ∈ lang.lexemes, l.category = .operator .prefixed → ∀ s ∈ l.spellings,
        s.toList.head?.any isNegation = true → s.toList.tail = []) ∧
      Cuts (lang.entailment.spelling style).toList [] ∧
      lang.kindOf (lang.entailment.spelling style).toList = .entails)
    ⟨fun ⟨h₁, h₂, h₃, h₄, h₅, h₆⟩ => ⟨h₁, h₂, h₃, h₄, h₅, h₆⟩,
      fun ⟨h₁, h₂, h₃, h₄, h₅, h₆⟩ => ⟨h₁, h₂, h₃, h₄, h₅, h₆⟩⟩

theorem spelled_horseshoe (style : Style) : Language.horseshoe.Spelled style := by
  cases style <;> decide +kernel

theorem spelled_arrow (style : Style) : Language.arrow.Spelled style := by
  cases style <;> decide +kernel

/-! ### One more operator -/

/-- The language with one more lexeme. -/
def extend (lang : Language) (l : Lexeme) : Language :=
  { lang with lexemes := lang.lexemes ++ [l] }

theorem lookup_extend (lang : Language) (l : Lexeme) (spelling : String) :
    (lang.extend l).lookup spelling =
      (lang.lookup spelling).or (if l.spellings.contains spelling then some l else none) := by
  simp only [extend, lookup, Lexicon.owner?, List.find?_append, List.find?_singleton]

theorem lexeme?_extend (lang : Language) (l : Lexeme) (name : String) :
    (lang.extend l).lexeme? name =
      (lang.lexeme? name).or (if l.name == name then some l else none) := by
  simp only [extend, lexeme?, List.find?_append, List.find?_singleton]

/-- What the language has a spelling for stays what it is. -/
theorem kindOf_extend {w : List Char} {l' : Lexeme}
    (h : lang.lookup (String.ofList w) = some l') : (lang.extend l).kindOf w = lang.kindOf w := by
  cases w with
  | nil => rfl
  | cons c tail => simp only [kindOf, tokenKind, lookup_extend, h, Option.some_or]

/-- An operator of the language is found by its name, if not always the lexeme that stands for it. -/
theorem exists_lexeme? {op : Operator} (h : op ∈ lang.operators) :
    ∃ first ∈ lang.lexemes, lang.lexeme? op.name = some first ∧ first.name = op.name := by
  obtain ⟨l, hl, hop⟩ := List.mem_filterMap.mp h
  have hname : l.name = op.name := (Lexeme.operator?_eq_some.mp hop).1
  have hfound : (lang.lexeme? op.name).isSome = true :=
    List.find?_isSome.mpr ⟨l, hl, by simp [hname]⟩
  obtain ⟨first, hfirst⟩ := Option.isSome_iff_exists.mp hfound
  exact ⟨first, List.mem_of_find?_eq_some hfirst, hfirst, by simpa using List.find?_some hfirst⟩

/-- The operators of the language are written as before. -/
theorem spelling_extend {op : Operator} (h : op ∈ lang.operators) (style : Style) :
    (lang.extend l).spelling op style = lang.spelling op style := by
  obtain ⟨first, -, hfirst, -⟩ := exists_lexeme? h
  simp only [spelling, lexeme?_extend, hfirst, Option.some_or]

/-- A postfix operator with the spelling `!`. -/
def exclamation (name : String) (glosses : List String) : Lexeme :=
  ⟨name, ["!"], .operator .postfixed, glosses⟩

section Exclamation

variable {name : String} {glosses : List String} {op : Operator}

theorem spelling_exclamation (hname : lang.lexeme? name = none) (fixity : Fixity) (style : Style) :
    (lang.extend (exclamation name glosses)).spelling ⟨name, fixity⟩ style = "!" := by
  simp only [spelling, lexeme?_extend, hname, Option.none_or, exclamation, beq_self_eq_true,
    if_true]
  cases style <;> rfl

theorem mem_operators_extend :
    op ∈ (lang.extend (exclamation name glosses)).operators ↔
      op ∈ lang.operators ∨ op = ⟨name, .postfixed⟩ := by
  simp [operators, extend, exclamation, Lexeme.operator?, List.filterMap_append]

/-- A postfix operator with a name and a spelling of its own can be added. -/
theorem Spelled.extend (h : lang.Spelled style) (hname : lang.lexeme? name = none)
    (hspelling : lang.lookup "!" = none) :
    (lang.extend (exclamation name glosses)).Spelled style where
  cuts_spelling := by
    intro op hop
    rcases mem_operators_extend.mp hop with hop | rfl
    · rw [spelling_extend hop]
      exact h.cuts_spelling op hop
    · rw [spelling_exclamation hname]
      decide
  kindOf_spelling := by
    intro op hop
    rcases mem_operators_extend.mp hop with hop | rfl
    · rw [spelling_extend hop]
      -- the old spelling is found before the new lexeme is looked at
      have hkind := h.kindOf_spelling op hop
      obtain ⟨l, hlookup, _⟩ := exists_lookup_of_operator hkind
      rw [kindOf_extend hlookup, hkind]
    · rw [spelling_exclamation hname]
      have hlookup : (lang.extend (exclamation name glosses)).lookup "!" =
          some (exclamation name glosses) := by
        rw [lookup_extend, hspelling]
        rfl
      show (lang.extend (exclamation name glosses)).tokenKind '!' "!" = _
      rw [tokenKind, hlookup]
      rfl
  prefixed := by
    intro op hop hfixity
    rcases mem_operators_extend.mp hop with hop | rfl
    · rw [spelling_extend hop]
      exact h.prefixed op hop hfixity
    · cases hfixity
  negation := by
    intro l hl hcategory
    rcases List.mem_append.mp hl with hl | hl
    · exact h.negation l hl hcategory
    · rw [List.mem_singleton.mp hl] at hcategory
      cases hcategory
  cuts_entailment := h.cuts_entailment
  kindOf_entailment := by
    obtain ⟨l, hlookup⟩ := exists_lookup_of_entails h.kindOf_entailment
    exact (kindOf_extend hlookup).trans h.kindOf_entailment

end Exclamation

end Language

end NaturalDeduction
