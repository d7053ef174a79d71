import Metrology.Main
import Metrology.Program.Builder
import Metrology.Program.Writer
import Metrology.Token.Lookahead
import Metrology.Proofs.Conversion.Reach
import Metrology.Proofs.Conversion.Drift
import Metrology.Proofs.Catalog.Draft
import Metrology.Proofs.Catalog.Level
import Metrology.Proofs.Catalog.Coherence
import Metrology.Proofs.Analysis.Accounting
import Metrology.Proofs.Analysis.Verdict
import Metrology.Proofs.Quantity.Meet
import Metrology.Proofs.Analysis.Frame
import Metrology.Proofs.Analysis.BodyStart
import Metrology.Proofs.Quantity.Interchange
import Metrology.Proofs.Analysis.Persistence
import Metrology.Proofs.Analysis.Instances
import Metrology.Proofs.Program
import Metrology.Proofs.Quantity.Measured
import Metrology.Proofs.Analysis.Tandem
import Metrology.Proofs.Analysis.Tandem.Stmt
import Metrology.Proofs.Analysis.Reuse
import Metrology.Proofs.Analysis.Reuse.Program
import Metrology.Proofs.Conversion.Components
import Metrology.Proofs.Scope.Guard
import Metrology.Proofs.Catalog.Slots
import Metrology.Proofs.Decimal.Binary
import Metrology.Proofs.Quantity.Dimensions
import Metrology.Proofs.Token.Stream
import Metrology.Proofs.Description.Grammar
import Metrology.Proofs.Description.Reading
import Metrology.Proofs.Catalog.Words
import Metrology.Proofs.Catalog.Unscaled
import Metrology.Proofs.Decimal.Numeral
import Metrology.Proofs.Json.Text
import Metrology.Proofs.Json.Reading
import Metrology.Proofs.Json.Values
import Metrology.Proofs.Program.RoundTrip
import Metrology.Proofs.Analysis.Visits
import Metrology.Proofs.Scope.Contents
import Metrology.Proofs.Analysis.Contents
import Metrology.Proofs.Analysis.WellFormed
import Metrology.Proofs.Analysis.Termination
import Metrology.Proofs.Analysis.Lockstep
import Metrology.Proofs.Analysis.Order
import Metrology.Proofs.Analysis.Completeness
import Metrology.Proofs.Analysis.Provenance
import Metrology.Proofs.Scope.Lexical
import Metrology.Proofs.Scope.Aligned
import Metrology.Proofs.Catalog.Rules
import Metrology.Proofs.Catalog.Exponents
import Metrology.Proofs.Catalog.Validation
import Metrology.Proofs.Analysis.Noninterference
import Metrology.Proofs.Analysis.Loops
import Metrology.Proofs.Quantity.Symmetry
import Metrology.Proofs.Analysis.Entry
import Metrology.Proofs.Conversion.Cycle
import Metrology.Proofs.Conversion.Tolerance
import Metrology.Proofs.Conversion.Tightness
import Metrology.Proofs.Conversion.Potential
import Metrology.Proofs.Conversion.Layers
import Metrology.Proofs.Quantity.Exact
import Metrology.Proofs.Quantity.Forgetting
import Metrology.Proofs.Analysis.Culprits
import Metrology.Proofs.Quantity.Power
import Metrology.Proofs.Decimal.Rounding
import Metrology.Proofs.Decimal.Nearest
import Metrology.Proofs.Token.Lexeme
import Metrology.Proofs.Token.Layout
import Metrology.Proofs.Token.Respacing
import Metrology.Proofs.Token.Lookahead
import Metrology.Proofs.Description.Viability
import Metrology.Proofs.Analysis.Duplicates
import Metrology.Proofs.Conversion.Locality
import Metrology.Proofs.Catalog.Rendering
