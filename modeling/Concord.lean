import Concord.Main
import Concord.Session
import Concord.Proofs.Derivation
import Concord.Proofs.Strand
import Concord.Proofs.Frame
import Concord.Proofs.Stack
import Concord.Proofs.History
import Concord.Proofs.Passage
import Concord.Proofs.Soundness
import Concord.Proofs.Acyclic
import Concord.Proofs.Unification
import Concord.Proofs.Matching
import Concord.Proofs.Position
import Concord.Proofs.Results
import Concord.Proofs.Plain
import Concord.Proofs.Repetition
import Concord.Proofs.Transparency
import Concord.Proofs.Utf8
import Concord.Proofs.Records
import Concord.Proofs.Words
import Concord.Proofs.Layout
import Concord.Proofs.Checks
import Concord.Proofs.Indexing
import Concord.Proofs.Stored
import Concord.Proofs.Canonical
import Concord.Proofs.Lexicons
import Concord.Proofs.Reload
import Concord.Proofs.Termination
import Concord.Proofs.Lookup
import Concord.Proofs.Inversion
import Concord.Proofs.Pairing
import Concord.Proofs.Locality
import Concord.Proofs.Reachable
import Concord.Proofs.Letters
import Concord.Proofs.Folding
import Concord.Proofs.OwnText
import Concord.Proofs.Offered
import Concord.Proofs.Lifecycle
import Concord.Proofs.Replacement
import Concord.Proofs.Extent
import Concord.Proofs.Trimming
import Concord.Proofs.TrimmedSearch
import Concord.Proofs.Padding
import Concord.Proofs.WholeParse
import Concord.Proofs.Collected
import Concord.Proofs.Surface
import Concord.Proofs.Written
import Concord.Proofs.Compilation
import Concord.Proofs.Reprinting
import Concord.Proofs.Linking
import Concord.Proofs.Calls
import Concord.Proofs.Comparison
import Concord.Proofs.Capped
import Concord.Proofs.Alternatives
import Concord.Proofs.Growth
import Concord.Proofs.Truncation
import Concord.Proofs.Lines
import Concord.Proofs.Inheritance
import Concord.Proofs.Bounds
import Concord.Proofs.Operations
import Concord.Proofs.Cuts
