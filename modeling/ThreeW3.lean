import ThreeW3.Lib.Machine
import ThreeW3.Lib.Chain
import ThreeW3.Lib.Heap
import ThreeW3.Lib.CMemory
import ThreeW3.Pool.Model
import ThreeW3.Pool.Chunks
import ThreeW3.Pool.PageList
import ThreeW3.Pool.Operations
import ThreeW3.Pool.Safety
import ThreeW3.Pool.Shared
import ThreeW3.Input.Model
import ThreeW3.Input.Player
import ThreeW3.Input.Scan
import ThreeW3.Input.Telnet
import ThreeW3.Input.Segments
import ThreeW3.Input.Editing
import ThreeW3.Input.LineEnds
import ThreeW3.Input.Overlong
import ThreeW3.Input.Login
import ThreeW3.Input.Dialogue
import ThreeW3.Input.Buffer
import ThreeW3.Input.ReadFailures
import ThreeW3.LinkedList.Deque
import ThreeW3.LinkedList.Lifetime
import ThreeW3.LinkedList.Traversal
import ThreeW3.LinkedList.Taking
import ThreeW3.LinkedList.Destroy
import ThreeW3.Sessions.Closing
import ThreeW3.Sessions.Listing
import ThreeW3.Walks.Kept
import ThreeW3.Walks.Balance
import ThreeW3.HostCache.Schedule
import ThreeW3.Hash.Refinement
import ThreeW3.Hash.Ownership
import ThreeW3.Hash.Teardown
import ThreeW3.Hash.Failures
import ThreeW3.Hash.Threads
import ThreeW3.Hash.Loads
import ThreeW3.Hash.Shrinking
import ThreeW3.Hash.Costs
import ThreeW3.Commands.Dispatch
import ThreeW3.Objects.Ordered
import ThreeW3.Objects.Graph
import ThreeW3.Objects.Leaks
import ThreeW3.Pool.Sizes
import ThreeW3.Output.Delivery
import ThreeW3.Banner.Fidelity
import ThreeW3.Banner.Loading
import ThreeW3.Listeners.Setup
import ThreeW3.Descriptors.Ownership
import ThreeW3.Descriptors.Leaks
import ThreeW3.Locks.Progress
import ThreeW3.Hash.Spread
