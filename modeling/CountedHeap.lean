import CountedHeap.Text.Record
import CountedHeap.Size.Checked
import CountedHeap.Size.Rounding
import CountedHeap.Memory.Place
import CountedHeap.Memory.Address
import CountedHeap.Memory.Word
import CountedHeap.Memory.Basic
import CountedHeap.Failure
import CountedHeap.Event
import CountedHeap.Block.Header
import CountedHeap.Block.Split
import CountedHeap.Block.Arena
import CountedHeap.Chain.Basic
import CountedHeap.Chain.Edit
import CountedHeap.Pages.Source
import CountedHeap.Heap.Basic
import CountedHeap.Heap.Segment
import CountedHeap.Heap.Acquire
import CountedHeap.Heap.Duplicate
import CountedHeap.Heap.Count
import CountedHeap.Heap.Report
import CountedHeap.Closure.Captures
import CountedHeap.Closure.Release
import CountedHeap.Boundary
import CountedHeap.Program.Command
import CountedHeap.Program.Run
import CountedHeap.Proofs.Frame
import CountedHeap.Proofs.Layout
import CountedHeap.Proofs.Linked
import CountedHeap.Proofs.Formed
import CountedHeap.Proofs.Steps
import CountedHeap.Proofs.Growth
import CountedHeap.Proofs.Taking
import CountedHeap.Proofs.Acquiring
import CountedHeap.Proofs.Closures
import CountedHeap.Proofs.Copying
import CountedHeap.Proofs.Runs
import CountedHeap.Proofs.Tiling
import CountedHeap.Proofs.Ownership
import CountedHeap.Proofs.Protocol
import CountedHeap.Proofs.Refinement
import CountedHeap.Proofs.Counting
import CountedHeap.Proofs.Outcomes
import CountedHeap.Proofs.FirstFit
import CountedHeap.Proofs.Replay
import CountedHeap.Proofs.Faults
import CountedHeap.Proofs.Persistence
import CountedHeap.Proofs.Accounting
import CountedHeap.Proofs.Refusals
import CountedHeap.Proofs.Duplicating
import CountedHeap.Proofs.Retiring
import CountedHeap.Proofs.Ending
import CountedHeap.Proofs.Reaching
import CountedHeap.Proofs.Demand
import CountedHeap.Proofs.Chaining
import CountedHeap.Proofs.Thresholds
import CountedHeap.Proofs.Splitting
