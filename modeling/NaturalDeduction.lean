import NaturalDeduction.AnnotatedText.InPlace
import NaturalDeduction.Calculus.Index
import NaturalDeduction.Derivation.InPlace
import NaturalDeduction.Formula.Traversal
import NaturalDeduction.Json.Derivation
import NaturalDeduction.Json.Language
import NaturalDeduction.Json.Printer
import NaturalDeduction.Logic.Fitch
import NaturalDeduction.Logic.Gensler
import NaturalDeduction.Logic.Gentzen
import NaturalDeduction.Parsing.InPlace
import NaturalDeduction.Proofs.AnnotatedText.Cells
import NaturalDeduction.Proofs.AnnotatedText.Draft
import NaturalDeduction.Proofs.AnnotatedText.Exact
import NaturalDeduction.Proofs.AnnotatedText.Regions
import NaturalDeduction.Proofs.AnnotatedText.Slice
import NaturalDeduction.Proofs.Calculus
import NaturalDeduction.Proofs.Calculus.Inference
import NaturalDeduction.Proofs.Calculus.Registry
import NaturalDeduction.Proofs.Calculus.Replacement
import NaturalDeduction.Proofs.Calculus.Reversal
import NaturalDeduction.Proofs.Derivation.Brackets
import NaturalDeduction.Proofs.Derivation.Citations
import NaturalDeduction.Proofs.Derivation.Depth
import NaturalDeduction.Proofs.Derivation.InPlace
import NaturalDeduction.Proofs.Derivation.Nesting
import NaturalDeduction.Proofs.Derivation.Subproofs
import NaturalDeduction.Proofs.Derivation.Undo
import NaturalDeduction.Proofs.Derivation.Visibility
import NaturalDeduction.Proofs.Formula.Lens
import NaturalDeduction.Proofs.Formula.Subformulas
import NaturalDeduction.Proofs.Json.Decoding
import NaturalDeduction.Proofs.Json.Faithful
import NaturalDeduction.Proofs.Json.Formats
import NaturalDeduction.Proofs.Json.Text
import NaturalDeduction.Proofs.Matching
import NaturalDeduction.Proofs.Matching.Bindings
import NaturalDeduction.Proofs.Matching.Complete
import NaturalDeduction.Proofs.Parsing.Exact
import NaturalDeduction.Proofs.Parsing.FirstError
import NaturalDeduction.Proofs.Parsing.InPlace
import NaturalDeduction.Proofs.Parsing.Respelling
import NaturalDeduction.Proofs.Parsing.SequentError
import NaturalDeduction.Proofs.Parsing.Spacing
import NaturalDeduction.Proofs.Rendering
import NaturalDeduction.Proofs.Rendering.Regions
import NaturalDeduction.Proofs.RoundTrip.Formula
import NaturalDeduction.Proofs.RoundTrip.Names
import NaturalDeduction.Proofs.RoundTrip.Operators
import NaturalDeduction.Proofs.RoundTrip.Sequent
import NaturalDeduction.Proofs.RoundTrip.Signs
import NaturalDeduction.Proofs.RoundTrip.Spellings
import NaturalDeduction.Proofs.Scanning.Cursor
import NaturalDeduction.Proofs.Scanning.Lossless
import NaturalDeduction.Proofs.Scanning.Positions
import NaturalDeduction.Proofs.Session.Failure
import NaturalDeduction.Proofs.Session.Growth
import NaturalDeduction.Proofs.Session.Recheck
import NaturalDeduction.Proofs.Session.Soundness
import NaturalDeduction.Proofs.Session.Statements
import NaturalDeduction.Proofs.Truth.Table
import NaturalDeduction.Proofs.Truth.Valuation
import NaturalDeduction.Session.Command
import NaturalDeduction.Session.InPlace
import NaturalDeduction.Token.Cursor
