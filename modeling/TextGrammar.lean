import TextGrammar.Format.Record
import TextGrammar.Format.Recursive
import TextGrammar.Proofs.Chains
import TextGrammar.Proofs.Choices
import TextGrammar.Proofs.Consumption
import TextGrammar.Proofs.Counts
import TextGrammar.Proofs.Dates
import TextGrammar.Proofs.Delimiters
import TextGrammar.Proofs.Equations
import TextGrammar.Proofs.Keywords
import TextGrammar.Proofs.Languages
import TextGrammar.Proofs.Literals
import TextGrammar.Proofs.Locality
import TextGrammar.Proofs.Nests
import TextGrammar.Proofs.Numbers
import TextGrammar.Proofs.Points
import TextGrammar.Proofs.Positions
import TextGrammar.Proofs.Ratios
import TextGrammar.Proofs.Recursion
import TextGrammar.Proofs.Resumption
import TextGrammar.Proofs.Settings
import TextGrammar.Proofs.Spans
import TextGrammar.Proofs.Tables
import TextGrammar.Proofs.Conditions
import TextGrammar.Proofs.Values
import TextGrammar.Proofs.Extension
import TextGrammar.Proofs.Bracketings
import TextGrammar.Proofs.Regrouping
import TextGrammar.Proofs.Scalars
import TextGrammar.Proofs.Layout
