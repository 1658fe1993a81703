import Z1Kv.Wal.Postcard
import Z1Kv.Wal.Sessions
import Z1Kv.Txn.Scan
import Z1Kv.Txn.Compaction
import Z1Kv.Txn.Timely
import Z1Kv.Txn.Eviction
import Z1Kv.Txn.Retention
import Z1Kv.Txn.Repeatable
import Z1Kv.Txn.LostUpdate
import Z1Kv.Txn.Reopen
import Z1Kv.Wal.Upkeep
import Z1Kv.Wal.GroupCommit
import Z1Kv.Wal.Committed
import Z1Kv.Wal.Grammar
import Z1Kv.Wal.Damage
import Z1Kv.Wal.Synced
import Z1Kv.Wal.Partial
import Z1Kv.Mvcc.Rules
import Z1Kv.Mvcc.Shadow
import Z1Kv.Mvcc.Timestamps
import Z1Kv.Mvcc.TimeTravel
import Z1Kv.Txn.Agreement
import Z1Kv.Txn.Rewrites
import Z1Kv.Txn.Accepted
import Z1Kv.Txn.Registries
import Z1Kv.Txn.Clocks
import Z1Kv.Txn.Fallback
import Z1Kv.Txn.TornLog
import Z1Kv.Txn.WalFirst
import Z1Kv.Txn.CheckpointSteps
import Z1Kv.Txn.FlushWindow
import Z1Kv.Txn.Serializable
import Z1Kv.Txn.CacheSteps
import Z1Kv.Txn.CorruptPatch
import Z1Kv.Txn.Uncommitted
import Z1Kv.Txn.InFlight
import Z1Kv.Store.Reopened
import Z1Kv.Store.PatchIds
import Z1Kv.Store.LayerRefinement
import Z1Kv.Store.FlushedVersions
import Z1Kv.Wal.CheckpointFiles
import Z1Kv.Store.SyncLevels
import Z1Kv.Txn.PinnedReads
import Z1Kv.Store.GatedOrder
