import Sietch.Base.Bytes
import Sietch.Base.SortedMap
import Sietch.Base.Outcome
import Sietch.Base.Run
import Sietch.Base.Script
import Sietch.Base.StableSort
import Sietch.Base.Isolation
import Sietch.Record
import Sietch.Segment
import Sietch.Log
import Sietch.LogSpec
import Sietch.LogRuns
import Sietch.LogFailure
import Sietch.StoreDir
import Sietch.Store
import Sietch.Compaction
import Sietch.StoreSpec
import Sietch.Retention
import Sietch.StoreInv
import Sietch.StoreRuns
import Sietch.StoreOpen
import Sietch.Snapshots
import Sietch.Spec
import Sietch.BatchCrash
import Sietch.CompactionCrash
import Sietch.Txn
import Sietch.TxnRuns
import Sietch.TxnCompaction
import Sietch.Base.Proc
import Sietch.Page
import Sietch.PageSpec
import Sietch.PageStore
import Sietch.BufferPool
import Sietch.BufferPoolInv
import Sietch.BufferPoolSpec
import Sietch.PoolTransparency
import Sietch.BTreePage
import Sietch.BTreePageSpec
import Sietch.HeapPageStore
import Sietch.LogDamage
import Sietch.SeqOrder
import Sietch.Base.Chain
import Sietch.Base.BPlusTree
import Sietch.Base.BPlusTreeSpec
import Sietch.HeapPageStoreSpec
import Sietch.HeapRuns
import Sietch.BTree
import Sietch.BTreeShape
import Sietch.BTreeSpec
import Sietch.BTreeLinks
import Sietch.BTreeOps
import Sietch.BTreeRuns
import Sietch.LogPageStore
import Sietch.TreeSessions
import Sietch.IndexedStore
import Sietch.Recovery
import Sietch.GroupCommit
import Sietch.CompactedHistory
import Sietch.BTreePaths
import Sietch.BTreeDeletion
import Sietch.BTreeRoom
import Sietch.BTreeFailure
import Sietch.BTreePins
import Sietch.BTreeAtomicity
import Sietch.CompactionFailure
import Sietch.IndexedTree
import Sietch.IndexedSpec
import Sietch.IndexedRuns
import Sietch.PageRuns
import Sietch.ClockEviction
import Sietch.CompactionReport
import Sietch.RecordLengths
import Sietch.IndexedRecovery
import Sietch.IndexedRejection
import Sietch.StoreFrame
import Sietch.IndexedCrash
import Sietch.Base.Crc
import Sietch.LogOpen
import Sietch.LogSegments
import Sietch.Corruption
import Sietch.Base.Restarts
import Sietch.TxnDurability
import Sietch.Base.Serial
import Sietch.TxnSerial
import Sietch.LogPageRuns
import Sietch.Base.Decimal
import Sietch.LogFolder
import Sietch.Base.Utf8
import Sietch.Vaultc
import Sietch.Base.BPlusTreeHeight
import Sietch.BTreeHeight
import Sietch.StoreLifetime
import Sietch.CompactionConverges
import Sietch.IndexedLifetime
import Sietch.TxnGuards
