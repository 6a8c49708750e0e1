import Lineage.Lookup
import Lineage.Base
import Lineage.Inheritance
import Lineage.Session
import Lineage.Request
import Lineage.Blueprint.Build
import Lineage.Proofs.Forest
import Lineage.Proofs.Lookup
import Lineage.Proofs.Trail
import Lineage.Proofs.Walk
import Lineage.Proofs.BaseRead
import Lineage.Proofs.Inheritance
import Lineage.Proofs.Reading
import Lineage.Proofs.Growth
import Lineage.Proofs.Rooted
import Lineage.Proofs.Nested
import Lineage.Proofs.Client
import Lineage.Proofs.Progress
import Lineage.Proofs.SlotMoves
import Lineage.Proofs.SlotRuns
import Lineage.Proofs.FullWalks
import Lineage.Proofs.Chains
import Lineage.Proofs.VisibleChildren
import Lineage.Proofs.Unfolding
import Lineage.Proofs.Mirror
import Lineage.Proofs.Service
import Lineage.Proofs.Override
import Lineage.Proofs.Change
import Lineage.Proofs.Containment
import Lineage.Proofs.Paths
import Lineage.Proofs.Depth
import Lineage.Proofs.Kinds
import Lineage.Proofs.Obtaining
import Lineage.Proofs.LayeredReads
import Lineage.Proofs.LayeredCalls
import Lineage.Proofs.LayeredRuns
import Lineage.Proofs.Blueprint.Checks
import Lineage.Proofs.Blueprint.Grammar
import Lineage.Proofs.Blueprint.Acceptance
import Lineage.Proofs.Blueprint.Selectors
import Lineage.Proofs.Blueprint.FirstViolation
import Lineage.Proofs.Blueprint.Places
import Lineage.Proofs.Blueprint.Construction
import Lineage.Proofs.Blueprint.Realization
import Lineage.Proofs.Blueprint.Descent
import Lineage.Proofs.Blueprint.SelectorOrder
