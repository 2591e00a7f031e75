import MatchAction.Diagnostic.Layout
import MatchAction.Pipeline.Dump
import MatchAction.Pipeline.Probe
import MatchAction.Edit.Script
import MatchAction.Proofs.Compilation
import MatchAction.Proofs.Schedule
import MatchAction.Proofs.Recursion
import MatchAction.Proofs.Signatures
import MatchAction.Proofs.Arguments
import MatchAction.Proofs.Ordering
import MatchAction.Proofs.Traversal
import MatchAction.Proofs.Outlining
import MatchAction.Proofs.Removal
import MatchAction.Proofs.Folding
import MatchAction.Proofs.Flow
import MatchAction.Proofs.Copies
import MatchAction.Proofs.FreshNames
import MatchAction.Proofs.Unfolding
import MatchAction.Proofs.WrittenTypes
import MatchAction.Proofs.Readability
import MatchAction.Proofs.Reduction
