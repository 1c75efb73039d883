import NaturalDeduction.Config
import NaturalDeduction.Json.Decoder
import NaturalDeduction.Language.Basic

/-! # Lexicons and configurations in JSON

    A language and a configuration can be given as text. A text is first read
    as a lexicon or a configuration, and then checked.
-/

namespace NaturalDeduction

open Json (Decoder fields?)

/-! ### Lexicons -/

/-- The words for a category. -/
def Category.word : Category → String
  | .operator .prefixed => "PREFIX OP"
  | .operator .postfixed => "POSTFIX OP"
  | .operator .infixed => "INFIX OP"
  | .entailment => "ENTAILS"

/-- All categories. -/
def Category.all : List Category :=
  [.operator .prefixed, .operator .postfixed, .operator .infixed, .entailment]

/-- An array of strings. -/
def Json.ofStrings (texts : List String) : Json := .array (texts.map .string)

/-- A lexeme as an object. -/
def Lexeme.toJson (l : Lexeme) : Json :=
  .object
    [("name", .string l.name),
      ("spellings", .ofStrings l.spellings),
      ("category", .string l.category.word),
      ("glosses", .ofStrings l.glosses)]

/-- Reads a lexeme. Without glosses it has none. -/
def Lexeme.ofJson? : Decoder Lexeme := fun v =>
  match fields? ["name", "spellings", "category", "glosses"] v with
  | some [name, spellings, category, glosses] => do
    let name ← Decoder.text.required name
    let spellings ← (Decoder.list Decoder.text).required spellings
    let category ← (Decoder.word Category.word Category.all).required category
    let glosses ← (Decoder.list Decoder.text).optional [] glosses
    return ⟨name, spellings, category, glosses⟩
  | _ => none

/-- A lexicon as an object of lexemes and spellings. -/
def Lexicon.toJson (l : Lexicon) : Json :=
  .object
    [("lexicon", .array (l.lexemes.map Lexeme.toJson)),
      ("equivalence", .ofStrings l.equivalence)]

/-- Reads a lexicon. -/
def Lexicon.ofJson? : Decoder Lexicon := fun v =>
  match fields? ["lexicon", "equivalence"] v with
  | some [lexemes, equivalence] => do
    let lexemes ← (Decoder.list Lexeme.ofJson?).required lexemes
    let equivalence ← (Decoder.list Decoder.text).required equivalence
    return ⟨lexemes, equivalence⟩
  | _ => none

/-- The language of the lexicon that a text is written for. -/
def Language.ofText (text : String) : Except LexiconError Language :=
  match Decoder.run Lexicon.ofJson? text with
  | some lexicon => Language.ofLexicon lexicon
  | none => .error .unreadable

/-! ### Configurations -/

/-- The word for a style. -/
def Style.word : Style → String
  | .ascii => "ascii"
  | .unicode => "unicode"

/-- A configuration as an object. -/
def Config.toJson (config : Config) : Json :=
  .object
    [("max_rule_premises", .natural config.premiseLimit),
      ("max_nesting_depth", .natural config.depthLimit),
      ("render_style", .string config.style.word),
      ("contextual_equivalence", .bool config.replaceInContext)]

/-- The names of the fields of a configuration. -/
def Config.fieldNames : List String :=
  ["max_rule_premises", "max_nesting_depth", "render_style", "contextual_equivalence"]

/-- Reads a configuration. What is left out keeps its default. -/
def Config.ofJson? : Decoder Config := fun v =>
  let default : Config := {}
  match fields? Config.fieldNames v with
  | some [premiseLimit, depthLimit, style, inContext] => do
    let premiseLimit ← Decoder.natural.optional default.premiseLimit premiseLimit
    let depthLimit ← Decoder.natural.optional default.depthLimit depthLimit
    let style ← (Decoder.word Style.word [.ascii, .unicode]).optional default.style style
    let inContext ← Decoder.bool.optional default.replaceInContext inContext
    return ⟨premiseLimit, depthLimit, style, inContext⟩
  | _ => none

/-- The configuration that a text is written for. -/
def Config.ofText (text : String) : Except ConfigError Config :=
  match Decoder.run Config.ofJson? text with
  | some config => config.check
  | none => .error .unreadable

end NaturalDeduction
