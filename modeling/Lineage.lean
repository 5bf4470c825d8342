import Lineage.Main
import Lineage.Proofs.Loaded
import Lineage.Proofs.NameOrder
import Lineage.Proofs.BackEdges
import Lineage.Proofs.References
import Lineage.Proofs.Sweep
import Lineage.Proofs.Delivery
import Lineage.Proofs.StoredChains
import Lineage.Proofs.Received
import Lineage.Proofs.Swept
import Lineage.Proofs.Confinement
import Lineage.Proofs.Engines
import Lineage.Proofs.Runs
import Lineage.Proofs.Links
import Lineage.Proofs.Inverse
import Lineage.Proofs.Hierarchies
import Lineage.Proofs.DeliveryOrder
import Lineage.Proofs.Forest
import Lineage.Proofs.LongNumerals
import Lineage.Proofs.Acceptance
import Lineage.Proofs.Upkeep
import Lineage.Proofs.Repetition
import Lineage.Proofs.Realization
import Lineage.Proofs.Accounting
import Lineage.Proofs.Renaming
import Lineage.Proofs.Permutation
import Lineage.Proofs.RenamedRuns
import Lineage.Proofs.RenamedReports
import Lineage.Proofs.Reordering
import Lineage.Proofs.Neighbours
import Lineage.Proofs.Watching
import Lineage.Proofs.Carried
import Lineage.Proofs.Aborts
import Lineage.Proofs.Calls
import Lineage.Proofs.ChainFigures
import Lineage.Proofs.Visibility
import Lineage.Proofs.Encodable
import Lineage.Proofs.Addressees
import Lineage.Proofs.Enlargement
import Lineage.Proofs.EnlargedRuns
import Lineage.Proofs.Decoding
import Lineage.Proofs.Arena
import Lineage.Proofs.ListenerOrder
import Lineage.Proofs.Steps
import Lineage.Proofs.Dispatch
import Lineage.Proofs.Deliveries
import Lineage.Proofs.UnknownMembers
import Lineage.Proofs.ParentCycles
import Lineage.Proofs.Tags
import Lineage.Proofs.Formats
import Lineage.Proofs.Injection
import Lineage.Proofs.Scripts
import Lineage.Proofs.Twins
import Lineage.Proofs.Detachment
