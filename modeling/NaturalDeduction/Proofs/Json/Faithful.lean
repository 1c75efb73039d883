import NaturalDeduction.Proofs.Json.Formats
import NaturalDeduction.Proofs.Json.Text

/-! # Faithful formats

    Formulas, sequents, substitutions, steps and lexicons are encoded as JSON
    values and decoded from them without loss, however deep they are nested. So
    they are stored without loss as well, as whatever texts a reader gets every
    value back from (`Carries`). Our own printer and reader are such a pair.

    A text from outside is not read as a whole: brackets that are nested deeper
    than a limit are left unread (`read?`). A lexicon is never nested that deep,
    but a formula with many operators inside one another may be, and then it is
    not read back from its text.
-/

namespace NaturalDeduction

open Json Json.Decoder

namespace Json

variable {Text α : Type} {print : Json → Text} {parse : Text → Option Json} {encode : α → Json}
  {decode : Decoder α} {storable : α → Prop}

/-- A reader gets every plain value back from what a printer writes for it. -/
def Carries (print : Json → Text) (parse : Text → Option Json) : Prop :=
  ∀ v, v.isPlain = true → parse (print v) = some v

theorem carries_print : Carries Json.print parse? := fun _ => parse?_print

/-- Values are recovered from their texts, and told apart by them. -/
structure Faithful (print : Json → Text) (parse : Text → Option Json) (encode : α → Json)
    (decode : Decoder α) (storable : α → Prop) : Prop where
  /-- A value comes back equal from its text. -/
  read : ∀ x, storable x → (parse (print (encode x))).bind decode = some x
  /-- Different values have different texts. -/
  distinct : ∀ x y, storable x → storable y → print (encode x) = print (encode y) → x = y

theorem faithful_of_recovers (hcarries : Carries print parse)
    (h : ∀ x, storable x → decode.Recovers (encode x) x) :
    Faithful print parse encode decode storable := by
  have hread : ∀ x, storable x → (parse (print (encode x))).bind decode = some x := by
    intro x hx
    rw [hcarries (encode x) (h x hx).plain]
    exact (h x hx).decode_eq
  refine ⟨hread, ?_⟩
  intro x y hx hy htext
  -- both are read from the one text
  have hboth := hread x hx
  rw [htext, hread y hy] at hboth
  exact (Option.some.inj hboth).symm

/-- **The formats are faithful.** Formulas, sequents with premises nested to any depth,
    substitutions, steps and lexicons come back equal from their texts, a substitution with its
    bindings in the same order, and different values never share a text. Only the numbers of a step
    have to be storable. -/
theorem encodings_faithful (h : Carries print parse) :
    Faithful print parse Formula.toJson Formula.ofJson? (fun _ => True) ∧
    Faithful print parse Sequent.toJson Sequent.ofJson? (fun _ => True) ∧
    Faithful print parse Substitution.toJson Substitution.ofJson? (fun _ => True) ∧
    Faithful print parse Step.toJson Step.ofJson? Step.Storable ∧
    Faithful print parse Lexicon.toJson Lexicon.ofJson? (fun _ => True) := by
  refine ⟨faithful_of_recovers h ?_, faithful_of_recovers h ?_, faithful_of_recovers h ?_,
    faithful_of_recovers h ?_, faithful_of_recovers h ?_⟩
  · exact fun f _ => Formula.recovers f
  · exact fun s _ => Sequent.recovers s
  · exact fun σ _ => Substitution.recovers σ
  · exact fun s hs => Step.recovers hs
  · exact fun l _ => Lexicon.recovers l

/-- A step with the largest numbers that can be stored. -/
def sampleRecord : Step where
  level := numberBound - 1
  formula := .proposition "A"
  citations := [.step (numberBound - 1), .subproof 1 (numberBound - 1)]
  ruleName := "\"Rule\"\n"
  ruleAbbreviation := "R"
  bindings := .ofList [("Q", .proposition "B"), ("P", .proposition "A")]
  conclusionIndex := numberBound - 1

theorem encodings_faithful_sampleRecord :
    Carries Json.print parse? ∧ sampleRecord.Storable ∧
      (parse? sampleRecord.toJson.print).bind Step.ofJson? = some sampleRecord := by
  have hstorable : sampleRecord.Storable := by decide
  obtain ⟨-, -, -, hsteps, -⟩ := encodings_faithful carries_print
  exact ⟨carries_print, hstorable, hsteps.read sampleRecord hstorable⟩

/-! ### How deep values may be nested -/

/-- What is recovered from a value is read from its text if the brackets there are nested no deeper
    than the limit, and else nothing is. -/
theorem Decoder.Recovers.run {v : Json} {x : α} (h : decode.Recovers v x) :
    decode.run v.print = within v.nesting nestingLimit x := by
  rw [Decoder.run, read?, parse?_print h.plain]
  exact h.read nestingLimit

theorem Decoder.Recovers.run_eq_some_iff {v : Json} {x : α} (h : decode.Recovers v x) :
    decode.run v.print = some x ↔ v.nesting ≤ nestingLimit := by
  rw [h.run, within]
  split
  · next hle => exact iff_of_true rfl hle
  · next hnot => exact iff_of_false (Option.some_ne_none x).symm hnot

/-- A proposition under some negations. -/
def sampleNegations : Nat → Formula
  | 0 => .proposition "A"
  | n + 1 => .app ⟨"Negation", .prefixed⟩ [sampleNegations n]

theorem nesting_sampleNegations (n : Nat) : (sampleNegations n).toJson.nesting = 3 * n + 2 := by
  induction n with
  | zero => rfl
  | succ n ih =>
    simp only [sampleNegations, Formula.toJson, Formula.toJsonAll, Operator.toJson, nesting,
      memberNesting, itemNesting, ih]
    omega

/-- A proposition is read back under 41 negations, but not under more. -/
theorem run_sampleNegations_iff (n : Nat) :
    Decoder.run Formula.ofJson? (sampleNegations n).toJson.print = some (sampleNegations n) ↔
      n ≤ 41 := by
  rw [(Formula.recovers _).run_eq_some_iff, nesting_sampleNegations, nestingLimit]
  omega

/-! ### Languages and configurations -/

theorem itemNesting_le_iff {items : List Json} {n : Nat} :
    itemNesting items ≤ n ↔ ∀ v ∈ items, v.nesting ≤ n := by
  induction items with
  | nil => simp [itemNesting]
  | cons v vs ih => rw [itemNesting, Nat.max_le, ih, List.forall_mem_cons]

theorem nesting_ofStrings (texts : List String) : (ofStrings texts).nesting ≤ 1 := by
  rw [ofStrings, nesting]
  refine Nat.succ_le_succ (itemNesting_le_iff.mpr ?_)
  rw [List.forall_mem_map]
  exact fun s _ => Nat.le_refl 0

end Json

theorem Lexeme.nesting_toJson (l : Lexeme) : l.toJson.nesting ≤ 2 := by
  have hspellings := nesting_ofStrings l.spellings
  have hglosses := nesting_ofStrings l.glosses
  simp only [Lexeme.toJson, nesting, memberNesting]
  omega

theorem Lexicon.nesting_toJson (l : Lexicon) : l.toJson.nesting ≤ 4 := by
  have hlexemes : itemNesting (l.lexemes.map Lexeme.toJson) ≤ 2 := by
    rw [itemNesting_le_iff, List.forall_mem_map]
    exact fun lexeme _ => lexeme.nesting_toJson
  have hequivalence := nesting_ofStrings l.equivalence
  simp only [Lexicon.toJson, nesting, memberNesting]
  omega

/-- The brackets of a lexicon are nested far less deep than the limit allows. -/
theorem Lexicon.run_print (l : Lexicon) :
    Decoder.run Lexicon.ofJson? l.toJson.print = some l := by
  rw [(Lexicon.recovers l).run_eq_some_iff]
  exact Nat.le_trans l.nesting_toJson (by decide)

/-- A language can be read from the text of its lexicon. -/
theorem Language.ofText_print (l : Lexicon) :
    Language.ofText l.toJson.print = Language.ofLexicon l := by
  rw [Language.ofText, l.run_print]

/-- A configuration is read from its text, and then checked. -/
theorem Config.ofText_print {config : Config} (h : config.Storable) :
    Config.ofText config.toJson.print = config.check := by
  have hread : Decoder.run Config.ofJson? config.toJson.print = some config := by
    rw [(Config.recovers h).run_eq_some_iff]
    exact show 1 ≤ nestingLimit by decide
  rw [Config.ofText, hread]

end NaturalDeduction
