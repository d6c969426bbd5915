import TreeCode.Command.Check
import TreeCode.Command.Explore
import TreeCode.Main
import TreeCode.Source.Draft
import TreeCode.Proofs.Canonical
import TreeCode.Proofs.Chunks
import TreeCode.Proofs.Compilation
import TreeCode.Proofs.Generation
import TreeCode.Proofs.StaticLinks
import TreeCode.Proofs.Wiring
import TreeCode.Proofs.IR.Obedience
import TreeCode.Proofs.Entry
import TreeCode.Proofs.Layout.Nesting
import TreeCode.Proofs.Lowering.Readings
import TreeCode.Proofs.Names.Invariance
import TreeCode.Proofs.Names.Uniqueness
import TreeCode.Proofs.Finality
import TreeCode.Proofs.DepthLimit
import TreeCode.Proofs.Termination
import TreeCode.Proofs.Isolation
import TreeCode.Proofs.Precedence
import TreeCode.Proofs.AccessPaths
import TreeCode.Proofs.FaultLocations
import TreeCode.Proofs.ResourceLimits
import TreeCode.Proofs.FixedPoint
import TreeCode.Proofs.Arguments
import TreeCode.Proofs.Literals
import TreeCode.Proofs.Wrapping
import TreeCode.Proofs.Listing
import TreeCode.Proofs.Evaluation
import TreeCode.Proofs.SingleUse
