import LayoutMarkup.Formatter
import LayoutMarkup.Proofs.Glyphs
import LayoutMarkup.Proofs.Scanning
import LayoutMarkup.Proofs.Grammar
import LayoutMarkup.Proofs.Parsing
import LayoutMarkup.Proofs.Derivations
import LayoutMarkup.Proofs.Spelling
import LayoutMarkup.Proofs.Nesting
import LayoutMarkup.Proofs.Regrouping
import LayoutMarkup.Proofs.FormulaTokens
import LayoutMarkup.Proofs.Agreement
import LayoutMarkup.Proofs.Meaning
import LayoutMarkup.Proofs.Lines
import LayoutMarkup.Proofs.Reindentation
import LayoutMarkup.Proofs.Gist
import LayoutMarkup.Proofs.Calls
import LayoutMarkup.Proofs.Values
import LayoutMarkup.Proofs.Trimming
import LayoutMarkup.Proofs.Respacing
import LayoutMarkup.Proofs.RunningText
import LayoutMarkup.Proofs.Runs
import LayoutMarkup.Proofs.Settling
import LayoutMarkup.Proofs.Siblings
import LayoutMarkup.Proofs.Layout
import LayoutMarkup.Proofs.Elements
import LayoutMarkup.Proofs.Preservation
import LayoutMarkup.Proofs.Attributes
import LayoutMarkup.Proofs.Stability
import LayoutMarkup.Proofs.Equivalence
import LayoutMarkup.Proofs.Classification
import LayoutMarkup.Proofs.Options
import LayoutMarkup.Proofs.Arguments
import LayoutMarkup.Proofs.Whitespace
import LayoutMarkup.Proofs.FirstFault
import LayoutMarkup.Proofs.Reading
import LayoutMarkup.Proofs.Places
import LayoutMarkup.Proofs.Prefixes
import LayoutMarkup.Proofs.Excerpts
import LayoutMarkup.Proofs.Sequences
import LayoutMarkup.Proofs.Outlines
import LayoutMarkup.Proofs.OpenElements
