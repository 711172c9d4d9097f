import Abacus.Exchange
import Abacus.Inspection
import Abacus.Json.Read
import Abacus.Session
import Abacus.Proofs.KnownNames
import Abacus.Proofs.Session.Coherence
import Abacus.Proofs.Session.Counters
import Abacus.Proofs.Session.Erasure
import Abacus.Proofs.Session.Handles
import Abacus.Proofs.Value.Functions
import Abacus.Proofs.Grammar.Basic
import Abacus.Proofs.Grammar.Brackets
import Abacus.Proofs.Grammar.Chains
import Abacus.Proofs.Grammar.Reader
import Abacus.Proofs.Grammar.Soundness
import Abacus.Proofs.Grammar.Neighbours
import Abacus.Proofs.Grammar.Completeness
import Abacus.Proofs.Grammar.Uniqueness
import Abacus.Proofs.Grammar.Correctness
import Abacus.Proofs.Grammar.Nesting
import Abacus.Proofs.Grammar.Limit
import Abacus.Proofs.Grammar.Activations
import Abacus.Proofs.Grammar.Faults
import Abacus.Proofs.Binary64.Rounding
import Abacus.Proofs.Binary64.Bits
import Abacus.Proofs.Binary64.Nearest
import Abacus.Proofs.Binary64.Packing
import Abacus.Proofs.Binary64.Division
import Abacus.Proofs.Binary64.Values
import Abacus.Proofs.Binary64.Floor
import Abacus.Proofs.Binary64.Remainders
import Abacus.Proofs.Decimal.Shortest
import Abacus.Proofs.Text.Lexemes
import Abacus.Proofs.Decimal.Scanning
import Abacus.Proofs.Text.Matching
import Abacus.Proofs.Decimal.Text
import Abacus.Proofs.Text.Heads
import Abacus.Proofs.Text.Spelling
import Abacus.Proofs.Text.Respelling
import Abacus.Proofs.Text.UnitSlots
import Abacus.Proofs.Text.Writing
import Abacus.Proofs.Text.Legibility
import Abacus.Proofs.Text.RoundTrip
import Abacus.Proofs.Text.Parsed
import Abacus.Proofs.Text.Definitions
import Abacus.Proofs.Text.Statements
import Abacus.Proofs.Text.WellFormed
import Abacus.Proofs.Exchange
import Abacus.Proofs.Evaluation.Continuation
import Abacus.Proofs.Fraction.Quotients
import Abacus.Proofs.Evaluation.Exactness
import Abacus.Proofs.Evaluation.Dependencies
import Abacus.Proofs.Evaluation.Limits
import Abacus.Proofs.Evaluation.Chains
import Abacus.Proofs.Evaluation.Folding
import Abacus.Proofs.Value.Hereditary
import Abacus.Proofs.Evaluation.Invariants
import Abacus.Proofs.Evaluation.Closedness
import Abacus.Proofs.Fraction.WellFormed
import Abacus.Proofs.Fraction.Completeness
import Abacus.Proofs.Fraction.Order
import Abacus.Proofs.Fraction.Rounding
import Abacus.Proofs.Fraction.Convergents
import Abacus.Proofs.Fraction.Composition
import Abacus.Proofs.Value.Fractions
import Abacus.Proofs.Session.Definitions
import Abacus.Proofs.Session.Dependencies
import Abacus.Proofs.Session.Fractions
import Abacus.Proofs.Value.Arithmetic
import Abacus.Proofs.Value.Commutation
import Abacus.Proofs.Value.Matrices
import Abacus.Proofs.Value.Transposition
import Abacus.Proofs.Value.Reductions
import Abacus.Proofs.Value.Elementwise
import Abacus.Proofs.Text.Values
import Abacus.Proofs.Positions.Reader
