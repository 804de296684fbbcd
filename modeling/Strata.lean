import Strata.Component.Workbench
import Strata.Merge.Rehearsal
import Strata.Proofs.Codec.Acceptance
import Strata.Proofs.Component.Locality
import Strata.Proofs.Store.Cascade
import Strata.Proofs.Store.Crashes
import Strata.Proofs.Store.Exclusive
import Strata.Proofs.Store.Gate
import Strata.Proofs.Store.Recency
import Strata.Proofs.Store.Requests
import Strata.Proofs.Store.Rest
import Strata.Proofs.Store.Unseen
import Strata.Proofs.Store.Waiting
import Strata.Site
import Strata.Proofs.Store.Notifications
import Strata.Proofs.Store.Wakeups
import Strata.Proofs.Store.Draining
import Strata.Proofs.Varint
import Strata.Proofs.Codec.Forms
import Strata.Proofs.Component.Rejection
import Strata.Proofs.Store.Rejection
import Strata.Proofs.Merge.Restraint
import Strata.Proofs.Merge.Settling
import Strata.Proofs.Merge.Rehearsal
import Strata.Proofs.Merge.Stretches
import Strata.Proofs.Pool
import Strata.Proofs.Codec.Placement
import Strata.Proofs.Codec.Remains
import Strata.Proofs.Store.Counters
import Strata.Proofs.Component.Places
import Strata.Proofs.Component.Leftovers
import Strata.Proofs.Store.Conservation
import Strata.Proofs.Store.Outermost
import Strata.Proofs.Component.Edits
import Strata.Proofs.Memory
import Strata.Proofs.Codec.Rewriting
import Strata.Proofs.Codec.Agreement
import Strata.Proofs.Codec.Overruns
import Strata.Proofs.Groups
