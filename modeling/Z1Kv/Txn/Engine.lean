import Z1Kv.Store.Flush
import Z1Kv.Wal.Checkpoint
import Z1Kv.Wal.Sessions

/-! The engine facade: MVCC, WAL and the three storage layers behind begin, get,
put, delete, commit, rollback, scan, flush, checkpoint and compact. One call at
a time; clock readings, hash iteration orders and the outcomes of file writes
are arguments of the calls that depend on them. -/
namespace Z1Kv

structure Z1Config where
  visibility : VisibilityConfig := {}
  strictMode : Bool := true
  checkpointWalSizeThreshold : Nat := 64 * 1024 * 1024
  l2CompactionThreshold : Nat := 64

/-- One cached snapshot, valid while its generation is the current one. -/
structure SnapshotCache where
  generation : Nat := 1
  fullCache : Option (Nat × TxnSnapshot) := none

namespace SnapshotCache

def invalidate (cache : SnapshotCache) : SnapshotCache :=
  { generation := cache.generation + 1, fullCache := none }

def snapshot (cache : SnapshotCache) (mvcc : VisibilityManager) : TxnSnapshot × SnapshotCache :=
  match cache.fullCache with
  | some (generation, snap) =>
      if generation = cache.generation then (snap, cache)
      else (mvcc.snapshot, { cache with fullCache := some (cache.generation, mvcc.snapshot) })
  | none => (mvcc.snapshot, { cache with fullCache := some (cache.generation, mvcc.snapshot) })

end SnapshotCache

/-- The engine `Z1Kv`; its data directory is in the parts that write to it. -/
structure Engine where
  config : Z1Config
  wal : WalWriter
  mvcc : VisibilityManager
  snapshotCache : SnapshotCache
  txnSnapshots : FinMap TxnId TxnSnapshot
  store : Store
  txnCounter : Nat
  checkpoints : CheckpointDir

/-- SSI conflict key: `cf(2B BE) || key`. -/
def conflictKey (cf : UInt16) (key : Bytes) : Bytes :=
  UInt8.ofNat (cf.toNat / 256) :: UInt8.ofNat (cf.toNat % 256) :: key

/-- What a commit reads from its surroundings: the clock before the WAL write,
the clock at the commit and at the prune, hash orders, and the file writes of
the maintenance that follows. -/
structure CommitEnv where
  insertedAt : Nat
  ts : Nat
  nowMs : Nat
  order : HashOrder
  writes : Writes

namespace Engine
variable (codec : Codec)

/-- Allocate the next transaction id. -/
def nextTxnId (db : Engine) : Except Z1Error (TxnId × Engine) :=
  if db.txnCounter = u64Max then .error (.internal .txnCounterOverflow)
  else .ok (db.txnCounter, { db with txnCounter := db.txnCounter + 1 })

def beginAttempts (db : Engine) : Nat → Except Z1Error TxnId × Engine
  | 0 => (.error (.internal .beginRetriesExhausted), db)
  | attempts + 1 =>
      match db.nextTxnId with
      | .error e => (.error e, db)
      | .ok (txnId, db) =>
          let db := { db with snapshotCache := db.snapshotCache.invalidate }
          match db.mvcc.beginTxnWithSnapshot txnId with
          | .ok (snap, mvcc) =>
              (.ok txnId,
                { db with mvcc, txnSnapshots := AList.insert txnId snap db.txnSnapshots })
          | .error (.alreadyCommitted id) =>
              if attempts = 0 then (.error (.internal (.beginFailed (.alreadyCommitted id))), db)
              else beginAttempts db attempts
          | .error conflict => (.error (.internal (.beginFailed conflict)), db)

/-- Begin a transaction with a pinned snapshot; an id that a commit has overtaken
is given up, at most 16 times. -/
def beginTxn (db : Engine) : Except Z1Error TxnId × Engine := db.beginAttempts 16

def ensureActiveTxn (db : Engine) (txnId : TxnId) : Except Z1Error Unit :=
  match db.mvcc.getBeginTs txnId with
  | some _ => .ok ()
  | none => .error (.txnNotFound txnId)

/-- WAL step of a put: the append is best effort, its error is dropped. -/
def logPut (db : Engine) (e : Z1Entry) : Engine :=
  { db with wal := (db.wal.append codec e.txnId (.put e.key.cf e.key.key e.value)).2 }

/-- Memory step of a put. -/
def insertHot (db : Engine) (e : Z1Entry) : Engine :=
  { db with store := { db.store with l1 := db.store.l1.replayPut e } }

/-- What `put` and `delete` share: check the transaction, record the write, log
it, insert it. -/
def write (db : Engine) (cf : UInt16) (key : Bytes) (value : Option Bytes) (txnId : TxnId) :
    Except Z1Error Unit × Engine :=
  match db.ensureActiveTxn txnId with
  | .error e => (.error e, db)
  | .ok () =>
      let db := { db with mvcc := db.mvcc.recordWrite txnId (conflictKey cf key) }
      let e : Z1Entry := ⟨⟨cf, key⟩, txnId, value⟩
      (.ok (), (db.logPut codec e).insertHot e)

def put (db : Engine) (cf : UInt16) (key value : Bytes) (txnId : TxnId) :
    Except Z1Error Unit × Engine :=
  db.write codec cf key (some value) txnId

def delete (db : Engine) (cf : UInt16) (key : Bytes) (txnId : TxnId) : Except Z1Error Unit × Engine :=
  db.write codec cf key none txnId

/-- The current snapshot, through the cache. -/
def snapshot (db : Engine) : TxnSnapshot × Engine :=
  let (snap, cache) := db.snapshotCache.snapshot db.mvcc
  (snap, { db with snapshotCache := cache })

def getAt (db : Engine) (snap : TxnSnapshot) (cf : UInt16) (key : Bytes) : Option Bytes :=
  db.store.getAt snap cf key

def scanAt (db : Engine) (snap : TxnSnapshot) (cf : UInt16) (start : Bytes) (endKey : Option Bytes) :
    List (Bytes × Bytes) :=
  db.store.scanAt snap cf start endKey

def get (db : Engine) (cf : UInt16) (key : Bytes) : Option Bytes × Engine :=
  let (snap, db) := db.snapshot
  (db.getAt snap cf key, db)

def scan (db : Engine) (cf : UInt16) (start : Bytes) (endKey : Option Bytes) :
    List (Bytes × Bytes) × Engine :=
  let (snap, db) := db.snapshot
  (db.scanAt snap cf start endKey, db)

/-- Read through the pinned snapshot and record the read. -/
def getForTxn (db : Engine) (cf : UInt16) (key : Bytes) (txnId : TxnId) :
    Except Z1Error (Option Bytes) × Engine :=
  match AList.lookup txnId db.txnSnapshots with
  | none => (.error (.txnNotFound txnId), db)
  | some snap =>
      (.ok (db.getAt snap cf key),
        { db with mvcc := db.mvcc.recordRead txnId (conflictKey cf key) })

/-- Rollback: the decision is logged first. -/
def rollback (db : Engine) (txnId : TxnId) : Except Z1Error Unit × Engine :=
  match db.ensureActiveTxn txnId with
  | .error e => (.error e, db)
  | .ok () =>
      let db := { db with snapshotCache := db.snapshotCache.invalidate }
      match db.wal.append codec txnId .rollback with
      | (.error e, wal) => (.error e, { db with wal })
      | (.ok (), wal) =>
          (.ok (),
            { db with
              wal
              mvcc := db.mvcc.rollbackTxn txnId
              txnSnapshots := AList.erase txnId db.txnSnapshots })

def flushNow (db : Engine) (writes : Writes) : Except Z1Error Nat × Engine :=
  let (result, store) := db.store.flushL1ToL2 writes.patch
  (result, { db with store })

def flush (db : Engine) (writes : Writes) : Except Z1Error (Option Nat) × Engine :=
  let (result, store) := db.store.tryFlush writes.patch
  (result, { db with store })

def compact (db : Engine) (writes : Writes) (minActiveBeginTs : TxnId) :
    Except Z1Error (Nat × Nat) × Engine :=
  let (result, store) := db.store.compactL2ToL3 writes.patch minActiveBeginTs
  (result, { db with store })

/-- The state a checkpoint writes: what the manager knows at this moment. -/
def checkpointState (db : Engine) : CheckpointState :=
  ⟨db.mvcc.committedTxn, db.mvcc.committedTxn, db.mvcc.committedHistoryEntries⟩

/-- Checkpoint file, then the pointer to it. -/
def writeCheckpoint (db : Engine) (writes : Writes) (state : CheckpointState) :
    Except Z1Error Unit × Engine :=
  let (result, checkpoints) := db.checkpoints.write writes state
  (result, { db with checkpoints })

/-- Durable checkpoint marker in the WAL. -/
def appendMarker (db : Engine) (state : CheckpointState) : Except Z1Error Unit × Engine :=
  let (result, wal) :=
    db.wal.appendDurable codec state.committedTxn (.checkpoint state.checkpointId)
  (result, { db with wal })

/-- Delete the segments below the current one. -/
def truncateWal (db : Engine) : Except Z1Error Unit × Engine :=
  let (result, wal) := db.wal.truncateBefore db.wal.position
  (result.map fun _ => (), { db with wal })

/-- Flush, sync, write the MVCC baseline, mark, truncate; the first failure ends
the checkpoint. -/
def checkpoint (db : Engine) (writes : Writes) : Except Z1Error Unit × Engine :=
  match db.flushNow writes with
  | (.error e, db) => (.error e, db)
  | (.ok _, db) =>
      match db.wal.flushAndSync codec with
      | (.error e, wal) => (.error e, { db with wal })
      | (.ok (), wal) =>
          let db := { db with wal }
          let state := db.checkpointState
          match db.writeCheckpoint writes state with
          | (.error e, db) => (.error e, db)
          | (.ok (), db) =>
              match db.appendMarker codec state with
              | (.error e, db) => (.error e, db)
              | (.ok (), db) => db.truncateWal

/-- The compaction watermark of automatic maintenance. -/
def gcWatermark (db : Engine) : TxnId :=
  min db.mvcc.oldestActiveBeginTs (db.txnSnapshots.keys.min?.getD u64Max)

def maintainCheckpoint (db : Engine) (writes : Writes) : Except Z1Error Unit × Engine :=
  if db.config.checkpointWalSizeThreshold > 0 ∧
      db.wal.dir.sizeBytes ≥ db.config.checkpointWalSizeThreshold then
    db.checkpoint codec writes
  else (.ok (), db)

def maintainCompaction (db : Engine) (writes : Writes) : Except Z1Error Unit × Engine :=
  if db.config.l2CompactionThreshold > 0 then
    let (result, store) :=
      db.store.tryCompact writes.patch db.gcWatermark db.config.l2CompactionThreshold
    (result.map fun _ => (), { db with store })
  else (.ok (), db)

/-- Post-commit maintenance: checkpoint by WAL size, then compaction by the
number of L2 patches. -/
def maybeAutoMaintain (db : Engine) (writes : Writes) : Except Z1Error Unit × Engine :=
  match db.maintainCheckpoint codec writes with
  | (.error e, db) => (.error e, db)
  | (.ok (), db) => db.maintainCompaction writes

/-- The apply phase of a commit. A conflict leaves the snapshot cache alone. -/
def applyCommit (db : Engine) (env : CommitEnv) (txnId : TxnId) : Except Z1Error Unit × Engine :=
  match db.mvcc.commitTxn env.order txnId env.insertedAt env.ts env.nowMs with
  | (.error conflict, mvcc) =>
      (.error (.mvccConflict conflict),
        { db with mvcc, txnSnapshots := AList.erase txnId db.txnSnapshots })
  | (.ok _, mvcc) =>
      (.ok (),
        { db with
          mvcc
          snapshotCache := db.snapshotCache.invalidate
          txnSnapshots := AList.erase txnId db.txnSnapshots })

/-- Commit: the durable Commit record comes first, then the MVCC commit with its
SSI check, then maintenance, whose failure is not reported. -/
def commit (db : Engine) (env : CommitEnv) (txnId : TxnId) : Except Z1Error Unit × Engine :=
  match db.ensureActiveTxn txnId with
  | .error e => (.error e, db)
  | .ok () =>
      match db.wal.appendDurable codec txnId (.commit txnId env.insertedAt) with
      | (.error e, wal) => (.error e, { db with wal })
      | (.ok (), wal) =>
          match applyCommit { db with wal } env txnId with
          | (.error e, db) => (.error e, db)
          | (.ok (), db) => (.ok (), (db.maybeAutoMaintain codec env.writes).2)

/-- A get reads the layers under the current snapshot. -/
theorem get_eq (db : Engine) (cf : UInt16) (key : Bytes) :
    (db.get cf key).1 = db.store.getAt db.snapshot.1 cf key := rfl

end Engine
end Z1Kv
