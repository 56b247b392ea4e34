import Irokle.Lib.BTree
import Irokle.Spec.Env
import Irokle.Spec.Inner
import Irokle.Spec.Buffer
import Irokle.Spec.Evidence
import Irokle.Spec.Memory
import Irokle.Lib.Kahn
import Irokle.Lib.LastWriter
import Irokle.Spec.Membership
import Irokle.Spec.Topology
import Irokle.Spec.Genesis
import Irokle.Spec.Admission
import Irokle.Spec.Receive
import Irokle.Lib.Causal
import Irokle.Proof.State
import Irokle.Proof.History
import Irokle.Proof.Records
import Irokle.Proof.Walk
import Irokle.Proof.Validate
import Irokle.Proof.Build
import Irokle.Proof.Topology
import Irokle.Proof.Commit
import Irokle.Proof.Pending
import Irokle.Proof.Batch
import Irokle.Proof.Admission
import Irokle.Proof.Receive
import Irokle.Spec.Creation
import Irokle.Proof.Creation
import Irokle.Proof.Quarantine
import Irokle.Spec.Staging
import Irokle.Spec.Storage
import Irokle.Proof.Staging
import Irokle.Proof.Storage
import Irokle.Proof.Obligations
import Irokle.Spec.Sync
import Irokle.Spec.Node
import Irokle.Proof.Node
import Irokle.Proof.Reachable
import Irokle.Proof.Activation
import Irokle.Proof.Bootstrap
import Irokle.Proof.Evidence
import Irokle.Proof.Complete
import Irokle.Proof.Converge
import Irokle.Lib.Radix
import Irokle.Spec.Clock
import Irokle.Proof.Trie
import Irokle.Proof.TrieMerge
import Irokle.Proof.Clock
import Irokle.Lib.Postcard
import Irokle.Spec.ClockStore
import Irokle.Proof.ClockStore
import Irokle.Proof.ClockScan
import Irokle.Spec.Request
import Irokle.Proof.Request
import Irokle.Lib.Reach
import Irokle.Lib.Postorder
import Irokle.Proof.Traverse
import Irokle.Lib.KahnQueue
import Irokle.Spec.Subset
import Irokle.Proof.Subset
import Irokle.Proof.Merge
import Irokle.Proof.Expiry
import Irokle.Lib.Greatest
import Irokle.Spec.Status
import Irokle.Proof.Status
import Irokle.Lib.Packing
import Irokle.Proof.Wire
import Irokle.Proof.Window
import Irokle.Proof.Drain
import Irokle.Proof.Repair
import Irokle.Lib.Fill
import Irokle.Proof.Peers
import Irokle.Proof.Goal
import Irokle.Spec.Session
import Irokle.Proof.Session
import Irokle.Proof.Retry
import Irokle.Proof.Scheduler
import Irokle.Proof.Pressure
import Irokle.Proof.Keys
import Irokle.Proof.Replicas
