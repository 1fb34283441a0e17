import ComplexFormula.Binary64.Hypotenuse
import ComplexFormula.Binary64.Remainder
import ComplexFormula.Complex.Principal
import ComplexFormula.Decimal.Notation
import ComplexFormula.Decimal.Reading
import ComplexFormula.Declaration.Reading
import ComplexFormula.Formula
import ComplexFormula.Library.Standard
import ComplexFormula.Sorting
import ComplexFormula.Text.Blank
import ComplexFormula.Text.Quoted
import ComplexFormula.Text.Unprintable
import ComplexFormula.Token.Hook
import ComplexFormula.Proofs.Grammar.Phrase
import ComplexFormula.Proofs.Grammar.Settling
import ComplexFormula.Proofs.Grammar.Completeness
import ComplexFormula.Proofs.Grammar.Context
import ComplexFormula.Proofs.Grammar.Soundness
import ComplexFormula.Proofs.Grammar.Course
import ComplexFormula.Proofs.Grammar.Balance
import ComplexFormula.Proofs.Evaluation
import ComplexFormula.Proofs.Definition.Header
import ComplexFormula.Proofs.Definition.Cutting
import ComplexFormula.Proofs.Definition.Form
import ComplexFormula.Proofs.Definition.Reading
import ComplexFormula.Proofs.Grammar.Building
import ComplexFormula.Proofs.Grammar.Depth
import ComplexFormula.Proofs.Grammar.Origin
import ComplexFormula.Proofs.Safety
import ComplexFormula.Proofs.Scanning.Extent
import ComplexFormula.Proofs.Scanning.Spelling
import ComplexFormula.Proofs.Scanning.Words
import ComplexFormula.Proofs.Scanning.Cutting
import ComplexFormula.Proofs.Scanning.WordOrder
import ComplexFormula.Proofs.Scanning.Lexicon
import ComplexFormula.Proofs.Scanning.Names
import ComplexFormula.Proofs.Printing.Lexemes
import ComplexFormula.Proofs.Printing.Phrases
import ComplexFormula.Proofs.Printing.Definitions
import ComplexFormula.Proofs.Binary64.Rounding
import ComplexFormula.Proofs.Decimal.Digits
import ComplexFormula.Proofs.Decimal.Shortest
import ComplexFormula.Proofs.Decimal.Reading
import ComplexFormula.Proofs.Printing.RoundTrip
import ComplexFormula.Proofs.Representation
import ComplexFormula.Proofs.Scanning.Lossless
import ComplexFormula.Proofs.Scanning.Spacing
import ComplexFormula.Proofs.Grammar.Places
import ComplexFormula.Proofs.Definition.Places
import ComplexFormula.Proofs.Library.Registration
import ComplexFormula.Proofs.Library.Extension
import ComplexFormula.Proofs.Library.Filling
import ComplexFormula.Proofs.Binding
import ComplexFormula.Proofs.Scanning.Faults
import ComplexFormula.Proofs.Grammar.Faults
import ComplexFormula.Proofs.Definition.Faults
import ComplexFormula.Proofs.Stages
import ComplexFormula.Proofs.Resolution
import ComplexFormula.Proofs.Renaming
import ComplexFormula.Proofs.Library.Store
import ComplexFormula.Proofs.Policies
import ComplexFormula.Proofs.Scanning.Longest
import ComplexFormula.Proofs.Signatures
import ComplexFormula.Proofs.Powers
import ComplexFormula.Proofs.Library.Extrema
import ComplexFormula.Proofs.Decimal.Literal
import ComplexFormula.Proofs.Scanning.Literals
