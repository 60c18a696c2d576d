import Brlib.Heap.Ring
import Brlib.ListHead.Basic
import Brlib.Heap.Rings
import Brlib.ListHead.RingsSpec
import Brlib.ListHead.Refinement
import Brlib.ListHead.Cut
import Brlib.Merging.Runs
import Brlib.Merging.Stable
import Brlib.Merging.Calls
import Brlib.Heap.Chain
import Brlib.ListSort.Basic
import Brlib.ListSort.Merge
import Brlib.ListSort.MergeFinal
import Brlib.ListSort.Rounds
import Brlib.ListSort.Correctness
import Brlib.Plist.Basic
import Brlib.Plist.Spec
import Brlib.Plist.Requeue
import Brlib.Plist.Run
import Brlib.Alloc.Lifo
import Brlib.Alloc.Region
import Brlib.Pool.Basic
import Brlib.Pool.Invariant
import Brlib.Pool.Spec
import Brlib.Pool.Run
import Brlib.Pool.Safety
import Brlib.Heap.Slot
import Brlib.Hlist.Basic
import Brlib.Hlist.Spec
import Brlib.Hash.Basic
import Brlib.Hashtable.Basic
import Brlib.Multimap.Chaining
import Brlib.Hashtable.Spec
import Brlib.Hashtable.Run
import Brlib.Pool.Overflow
import Brlib.Heap.Lookahead
import Brlib.ListHead.Iteration
import Brlib.ListHead.SafeIteration
import Brlib.Pool.Destroy
import Brlib.Hlist.Refinement
import Brlib.Hlist.Iteration
import Brlib.Hlist.SafeIteration
import Brlib.Bits.SetBits
import Brlib.Bits.Highest
import Brlib.Bits.Halving
import Brlib.Bits.Swap
import Brlib.Bitops.Basic
import Brlib.Bitops.Emulated
import Brlib.Bitops.Iteration
import Brlib.Bitops.Variants
import Brlib.Bits.Rotate
import Brlib.Bits.TopBits
import Brlib.Hash.Uniform
import Brlib.Hash.String
import Brlib.Hashtable.Index
import Brlib.Alloc.Circle
import Brlib.Pool.Alignment
import Brlib.Merging.Pending
import Brlib.ListSort.Heads
import Brlib.ListSort.Balance
import Brlib.Bitops.Rotate
import Brlib.Hash.Pjw
import Brlib.Merging.Cost
import Brlib.ListSort.Comparisons
import Brlib.Merging.Unique
import Brlib.ListSort.Passes
import Brlib.Heap.TwoLists
import Brlib.ListHead.Bulk
import Brlib.Words.Bytes
import Brlib.Unaligned.Basic
import Brlib.Unaligned.Spec
import Brlib.Blocks.Stream
import Brlib.Xxhash.Basic
import Brlib.Xxhash.Loops
import Brlib.Xxhash.OneShot
import Brlib.Xxhash.Buffered
import Brlib.Xxhash.Streaming
import Brlib.Bits.Mixing
import Brlib.Xxhash.Detect
import Brlib.Xxhash.DetectTail
import Brlib.Queue.Arrival
import Brlib.Plist.Drain
import Brlib.Alloc.Ledger
import Brlib.Pool.Frame
import Brlib.Pool.Programs
import Brlib.Alloc.Peak
import Brlib.Pool.Growth
import Brlib.Heap.Scan
import Brlib.Heap.Restart
import Brlib.ListHead.Traversal
import Brlib.ListHead.Editing
import Brlib.ListHead.ResetNext
import Brlib.ListHead.SafeContinue
import Brlib.ListHead.Ends
import Brlib.Plist.Sweep
import Brlib.Hlist.Traversal
import Brlib.Hlist.Editing
import Brlib.Multimap.Newest
import Brlib.Hashtable.Removal
import Brlib.Hashtable.Lookup
import Brlib.Bits.Folding
import Brlib.Hash.Folded
import Brlib.Circ.Arc
import Brlib.Circ.Buffer
import Brlib.Bitops.OddPart
