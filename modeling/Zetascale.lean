import Zetascale.Seqno.Unique
import Zetascale.Btree.LogicalId
import Zetascale.Btree.PendingLists
import Zetascale.Btree.BatchLeaf
import Zetascale.Btree.FailedWrite
import Zetascale.Btree.SplitInsert
import Zetascale.Btree.SnapshotDirectory
import Zetascale.Btree.TrxAdmission
import Zetascale.VarLeaf.Split
import Zetascale.Recovery.Chunks
import Zetascale.Recovery.StormLoad
import Zetascale.Flash.Accounting
import Zetascale.Flash.SlabAlloc
import Zetascale.Flash.GroupCommit
import Zetascale.Flash.TrxLocks
import Zetascale.Replication.ReservationRuns
import Zetascale.Replication.LeaseRuns
import Zetascale.Cache.Capacity
import Zetascale.Cache.ModifiedObjects
import Zetascale.Logging.Enumeration
import Zetascale.Logging.NvramOrder
import Zetascale.Logging.NvramSync
