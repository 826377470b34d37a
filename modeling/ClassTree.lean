import ClassTree.Config.Reader
import ClassTree.Element.Place
import ClassTree.Gate
import ClassTree.Plain.Assign
import ClassTree.Proofs.Canonical
import ClassTree.Proofs.Equivalence
import ClassTree.Proofs.History
import ClassTree.Proofs.Insertion
import ClassTree.Proofs.Merge
import ClassTree.Proofs.Overlay
import ClassTree.Proofs.Policies
import ClassTree.Proofs.Pruning
import ClassTree.Proofs.RoundTrip
import ClassTree.Proofs.Soundness
import ClassTree.Proofs.Uses
import ClassTree.Proofs.Requirements
import ClassTree.Proofs.Reordering
import ClassTree.Proofs.CopiedFeatures
import ClassTree.Proofs.Slots
import ClassTree.Proofs.Timeline
import ClassTree.Proofs.PathErrors
import ClassTree.Proofs.PathText
import ClassTree.Proofs.Sameness
import ClassTree.Proofs.Presence
import ClassTree.Proofs.Flags
