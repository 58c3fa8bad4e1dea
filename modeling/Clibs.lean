import Clibs.Avl.Map
import Clibs.Avl.Ownership
import Clibs.Foundation.Segment
import Clibs.Foundation.ThreadTable
import Clibs.Ch.Channel
import Clibs.Ch.Threads
import Clibs.Ch.Fifo
import Clibs.Ch.Refinement
import Clibs.Ch.Delivery
import Clibs.Ch.Peek
import Clibs.Ch.Wakeup
import Clibs.Fh.Bucket
import Clibs.Fh.Table
import Clibs.Foundation.FiniteMap
import Clibs.Foundation.Gather
import Clibs.Fh.Chain
import Clibs.Fh.Invariant
import Clibs.Fh.Sections
import Clibs.Fh.Enum
import Clibs.Fh.Calls
import Clibs.Fh.Clean
import Clibs.Fh.Create
import Clibs.Fh.Size
import Clibs.Fh.Map
import Clibs.Foundation.DoublyLinked
import Clibs.Ll.Invariant
import Clibs.Lru.Cache
import Clibs.Foundation.RecencyList
import Clibs.Lru.Invariant
import Clibs.Lru.Operations
import Clibs.Lru.Recency
import Clibs.Lru.Failure
import Clibs.Lru.Agreement
import Clibs.Lru.Interleaving
import Clibs.Fh.Runs
import Clibs.Fh.Representation
import Clibs.Fh.Readdress
import Clibs.Fh.Failure
import Clibs.Fh.Threads
import Clibs.Fh.Updates
import Clibs.Fh.Counter
import Clibs.Fh.Decisions
import Clibs.Fh.Snapshot
import Clibs.Ch.Administration
import Clibs.Ch.Destroy
import Clibs.Ch.Pipe
import Clibs.Thp.Pool
import Clibs.Thp.View
import Clibs.Thp.Refinement
import Clibs.Thp.Ledger
import Clibs.Avl.Unchanged
import Clibs.Ll.Run
import Clibs.Ll.Relink
import Clibs.Foundation.CellArray
import Clibs.Vector.Vector
import Clibs.Vector.Refinement
import Clibs.Vector.Exhaustion
import Clibs.Avl.Refusal
import Clibs.Fh.Lending
import Clibs.Fh.Listing
import Clibs.Fh.Emptying
import Clibs.Lru.Starvation
import Clibs.Foundation.LockOrder
import Clibs.Lru.Locks
import Clibs.Lru.Sections
import Clibs.Lru.Interlock
import Clibs.Thp.Locking
import Clibs.Thp.Conservation
import Clibs.Thp.Roles
import Clibs.Foundation.Schedule
import Clibs.Thp.Closing
import Clibs.Thp.Shutdown
import Clibs.Thp.Deadlock
import Clibs.Fh.Buffer
import Clibs.Lru.Inspection
import Clibs.Fh.Balance
import Clibs.Fh.Pairs
import Clibs.Fh.Exits
import Clibs.Ch.Granting
import Clibs.Thp.Refusal
import Clibs.Thp.SingleWait
import Clibs.Thp.Handover
import Clibs.Foundation.Linearization
import Clibs.Fh.Users
import Clibs.Fh.Atomicity
import Clibs.Fh.Guarded
import Clibs.Ch.Atomicity
import Clibs.Fh.DefaultHash
import Clibs.Lru.Reuse
import Clibs.Ch.Memory
import Clibs.Ch.Workload
import Clibs.Fh.WyhashTargets
import Clibs.Foundation.Paging
import Clibs.Thp.Memory
import Clibs.Foundation.Holdings
import Clibs.Fh.Memory
import Clibs.Fh.Destroy
