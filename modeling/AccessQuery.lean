import AccessQuery.Main
import AccessQuery.Proofs.Accounting
import AccessQuery.Proofs.Order
import AccessQuery.Proofs.RoundTrip
import AccessQuery.Proofs.Walk.Upholds
import AccessQuery.Proofs.Agreement
import AccessQuery.Proofs.History
import AccessQuery.Proofs.Picks
import AccessQuery.Proofs.Steady
import AccessQuery.Proofs.Repetition
import AccessQuery.Proofs.Locality
import AccessQuery.Proofs.Trunk
import AccessQuery.Proofs.Pruning
import AccessQuery.Proofs.Narrowing
import AccessQuery.Proofs.Grammar.Derivation
import AccessQuery.Proofs.Rereading
import AccessQuery.Proofs.Grammar.Soundness
import AccessQuery.Proofs.Grammar.Completeness
import AccessQuery.Proofs.Acceptance
import AccessQuery.Proofs.Encoding
import AccessQuery.Proofs.Truncation
import AccessQuery.Proofs.Independence
import AccessQuery.Proofs.Diagnostics
import AccessQuery.Proofs.FirstMatch
import AccessQuery.Proofs.SingleLevel
import AccessQuery.Proofs.Deepening
import AccessQuery.Proofs.Issuance
import AccessQuery.Proofs.Reporting
import AccessQuery.Proofs.Navigation
import AccessQuery.Proofs.Promptness
import AccessQuery.Proofs.Refusal
import AccessQuery.Proofs.Locating
import AccessQuery.Proofs.Unquotable
import AccessQuery.Proofs.Judging
import AccessQuery.Proofs.Iteration
import AccessQuery.Proofs.Comparison
import AccessQuery.Proofs.StateLists
import AccessQuery.Proofs.Spellings
import AccessQuery.Proofs.Scanners
import AccessQuery.Proofs.Nesting
import AccessQuery.Proofs.Reads
