import TfReading.Strings.OrderedCodeRead
import TfReading.GraphCycles.Paths
import TfReading.Executor.UntakenLoop
import TfReading.Executor.Acyclic
import TfReading.Bfc.Coalesced
import TfReading.Bfc.Growth
import TfReading.ShapeUtil.Permute
import TfReading.BCast.Elements
import TfReading.StridedSlice.Partial
import TfReading.TensorShape.Variants
import TfReading.TensorShape.Atomic
import TfReading.HeapSimulator.Sound
import TfReading.Executor.Reclaim
import TfReading.Deadness.SwitchN
import TfReading.Deadness.Factory
import TfReading.ResourceSafety.Propagation
import TfReading.Cancellation.Protocol
import TfReading.Lite.FormatConverter
import TfReading.Lite.StringUtil
import TfReading.LocalRendezvous.Matching
import TfReading.LocalRendezvous.Cancelling
import TfReading.Table.Bounds
import TfReading.BatchScheduler.Invariant
import TfReading.WhileLoop.TripCount
import TfReading.ShapeInference.Dimensions
import TfReading.ShapeInference.Subshape
import TfReading.Sparse.Slice
import TfReading.Sparse.IndicesValid
import TfReading.Streams.BufferedInputStream
