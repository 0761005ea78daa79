import EdgeActions.Action.Basic
import EdgeActions.Action.Order
import EdgeActions.Action.Sequence
import EdgeActions.ActionTree
import EdgeActions.Call
import EdgeActions.Counter
import EdgeActions.Diagnostics
import EdgeActions.Digest
import EdgeActions.FlagChecker
import EdgeActions.Lookahead
import EdgeActions.OrderedSet
import EdgeActions.Proofs.ActionText
import EdgeActions.Proofs.ArgumentOffsets
import EdgeActions.Proofs.BalancedFlags
import EdgeActions.Proofs.BalancedSegments
import EdgeActions.Proofs.CoarsestFusion
import EdgeActions.Proofs.Conflicts
import EdgeActions.Proofs.Delimiters
import EdgeActions.Proofs.EmptyShift
import EdgeActions.Proofs.FirstOccurrences
import EdgeActions.Proofs.FirstViolation
import EdgeActions.Proofs.FlatActions
import EdgeActions.Proofs.FusionFacets
import EdgeActions.Proofs.FusionInvariance
import EdgeActions.Proofs.FusionShift
import EdgeActions.Proofs.Grouping
import EdgeActions.Proofs.Interchange
import EdgeActions.Proofs.LookaheadText
import EdgeActions.Proofs.MadeTrees
import EdgeActions.Proofs.Narrowing
import EdgeActions.Proofs.OrderAgreement
import EdgeActions.Proofs.PartialVisits
import EdgeActions.Proofs.PiecewiseFusion
import EdgeActions.Proofs.Reachable
import EdgeActions.Proofs.RecordText
import EdgeActions.Proofs.Remainders
import EdgeActions.Proofs.Remarks
import EdgeActions.Proofs.Reordering
import EdgeActions.Proofs.Seams
import EdgeActions.Proofs.ShiftComposition
import EdgeActions.Proofs.ShiftFrame
import EdgeActions.Proofs.ShiftedCounters
import EdgeActions.Proofs.StackView
import EdgeActions.Reduction
import EdgeActions.Step
import EdgeActions.Step.Order
import EdgeActions.Symbol
import EdgeActions.Text
