import Sequitur.Document.Lookup
import Sequitur.Main
import Sequitur.Project
import Sequitur.Proofs.Substitution
import Sequitur.Proofs.DistinctComposition
import Sequitur.Proofs.Reading
import Sequitur.Proofs.Typing
import Sequitur.Proofs.WellFormed
import Sequitur.Proofs.Derivation
import Sequitur.Proofs.Soundness
import Sequitur.Proofs.Dependencies
import Sequitur.Proofs.Unification
import Sequitur.Proofs.MostGeneral
import Sequitur.Proofs.UnifierRuns
import Sequitur.Proofs.RoundTrip
import Sequitur.Proofs.FullPass
import Sequitur.Proofs.Reprinting
import Sequitur.Proofs.CanonicalKeys
import Sequitur.Proofs.Refinement
import Sequitur.Proofs.DeclaringNotes
import Sequitur.Proofs.Accounting
import Sequitur.Proofs.Matching
import Sequitur.Proofs.Extension
import Sequitur.Proofs.Framing
import Sequitur.Proofs.Replaying
import Sequitur.Proofs.Suggesting
import Sequitur.Proofs.Proving
import Sequitur.Proofs.Hygiene
import Sequitur.Proofs.Alternatives
import Sequitur.Proofs.Ordering
import Sequitur.Proofs.Violations
import Sequitur.Proofs.Sharing
import Sequitur.Proofs.HoleNames
import Sequitur.Proofs.Reinstantiation
import Sequitur.Proofs.Nesting
import Sequitur.Proofs.Coverage
import Sequitur.Proofs.Lookups
import Sequitur.Proofs.ProofStates
import Sequitur.Proofs.Ranking
import Sequitur.Proofs.Occurrences
import Sequitur.Proofs.Edits
import Sequitur.Proofs.Commuting
