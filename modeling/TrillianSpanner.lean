import TrillianSpanner.Go
import TrillianSpanner.Subtree
import TrillianSpanner.SubtreeData
import TrillianSpanner.Cache
import TrillianSpanner.TreeHead
import TrillianSpanner.SnapshotTX
import TrillianSpanner.TreeTX.Model
import TrillianSpanner.TreeTX.Steps
import TrillianSpanner.TreeTX.Locking
import TrillianSpanner.TreeTX.Fanout
import TrillianSpanner.TreeTX.Lifecycle
import TrillianSpanner.TreeTX.Writes
import TrillianSpanner.TreeTX.Revisions
import TrillianSpanner.TreeTX.CacheLock
import TrillianSpanner.TreeTX.Head
import TrillianSpanner.TreeTX.Progress
import TrillianSpanner.TreeTX.Flush
