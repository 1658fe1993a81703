import Z1Kv.Library.Runs
import Z1Kv.Txn.Engine
import Z1Kv.Wal.Recovery

/-! Opening the engine on a data directory, calls on an open engine, and lives
of a data directory: sessions of calls, ended by a drop or a crash that may cut
the last WAL segment. -/
namespace Z1Kv

/-- What is on disk. -/
structure DataDir where
  wal : WalDir := []
  checkpoints : CheckpointDir := {}
  l2 : List Patch := []
  l3 : List Patch := []

/-- The clock reading of an open and the order in which directories are read. -/
structure OpenEnv where
  now : Nat
  listing : List Patch → List Patch
  listing_perm : ∀ files, (listing files).Perm files

def OpenEnv.listed (now : Nat) : OpenEnv := ⟨now, id, fun _ => .refl _⟩

/-- `DiskLayer::new`: the index is rebuilt from the files, by smallest key. -/
def DiskLayer.open (env : OpenEnv) (files : List Patch) : DiskLayer :=
  ⟨(env.listing files).insertionSort (·.minKey ≤ ·.minKey), []⟩

theorem DiskLayer.open_perm (env : OpenEnv) (files : List Patch) :
    (DiskLayer.open env files).patches.Perm files :=
  (List.perm_insertionSort _ _).trans (env.listing_perm files)

/-- Replayed operations go to memory only. -/
def replayIntoL1 (l1 : MemStore) (op : WalEntry) : Except Z1Error Unit × MemStore :=
  match op.record with
  | .put cf key value => (.ok (), l1.replayPut ⟨⟨cf, key⟩, op.txnId, value⟩)
  | _ => (.ok (), l1)

/-- Checkpoint history with the WAL history on top. -/
def mergeHistory (checkpoint : List (TxnId × Nat)) (wal : FinMap TxnId Nat) : FinMap TxnId Nat :=
  (FinMap.insertAll ∅ checkpoint).insertAll (wal.entries.map fun e => (e.1, e.2))

/-- Segment size of the engine's WAL. -/
def engineSegmentSize : Nat := 128 * 1024 * 1024

namespace Engine
variable (codec : Codec)

/-- Open an engine. The source fixes the segment size to `engineSegmentSize`. -/
def openWithConfig (maxFileSize : Nat) (env : OpenEnv) (config : Z1Config) (dir : DataDir) :
    Except Z1Error Engine :=
  let wal := WalWriter.openLatest dir.wal (sessionConfig maxFileSize)
  let l2 := DiskLayer.open env dir.l2
  let l3 := DiskLayer.open env dir.l3
  let nextPatchId := max l2.maxPatchId l3.maxPatchId + 1
  let mvcc := VisibilityManager.newWithConfig config.visibility
  let (cpCommittedTxn, cpHistory) := dir.checkpoints.recoveryBaseline.getD (0, [])
  match replayCommittedOps replayIntoL1 codec wal.dir config.strictMode
      (MemStore.new (64 * 1024 * 1024)) with
  | .error e => .error e
  | .ok (recovery, l1) =>
      let mergedHistory := mergeHistory cpHistory recovery.commitTsMap
      let committedTxn := max cpCommittedTxn recovery.maxSeenCommittedTxn
      let mvcc := ((mvcc.setCommittedTxn committedTxn).recoverCommittedHistory
        (mergedHistory.entries.map fun e => (e.1, e.2)) recovery.insertedAtMap
          env.now).setReplayWatermark recovery.replayWatermark
      .ok
        { config
          wal
          mvcc
          snapshotCache := {}
          txnSnapshots := ∅
          store := { l1, recentFlush := ∅, l2, l3, nextPatchId }
          txnCounter := min (committedTxn + 1) u64Max
          checkpoints := dir.checkpoints }

/-- What a dropped engine leaves behind, with the files of failed patch writes. -/
def close (db : Engine) : DataDir :=
  ⟨db.wal.close codec, db.checkpoints, db.store.l2.files, db.store.l3.files⟩

end Engine

/-- A call on an open engine. -/
inductive Op
  | begin
  | put (cf : UInt16) (key value : Bytes) (txnId : TxnId)
  | delete (cf : UInt16) (key : Bytes) (txnId : TxnId)
  | get (cf : UInt16) (key : Bytes)
  | getForTxn (cf : UInt16) (key : Bytes) (txnId : TxnId)
  | scan (cf : UInt16) (start : Bytes) (endKey : Option Bytes)
  | commit (txnId : TxnId) (env : CommitEnv)
  | rollback (txnId : TxnId)
  | flushNow (writes : Writes)
  | flush (writes : Writes)
  | checkpoint (writes : Writes)
  | compact (writes : Writes) (minActiveBeginTs : TxnId)

inductive Reply
  | failed (e : Z1Error)
  | began (txnId : TxnId)
  | done
  | value (found : Option Bytes)
  | rows (found : List (Bytes × Bytes))
  | flushed (groups : Option Nat)
  | compacted (cfs reclaimed : Nat)
  deriving DecidableEq

def Reply.ofResult {α : Type} (ok : α → Reply) : Except Z1Error α → Reply
  | .ok a => ok a
  | .error e => .failed e

namespace Engine
variable (codec : Codec)

def step (db : Engine) : Op → Reply × Engine
  | .begin => db.beginTxn.map (Reply.ofResult .began) id
  | .put cf key value txnId => (db.put codec cf key value txnId).map (Reply.ofResult fun _ => .done) id
  | .delete cf key txnId => (db.delete codec cf key txnId).map (Reply.ofResult fun _ => .done) id
  | .get cf key => (db.get cf key).map .value id
  | .getForTxn cf key txnId => (db.getForTxn cf key txnId).map (Reply.ofResult .value) id
  | .scan cf start endKey => (db.scan cf start endKey).map .rows id
  | .commit txnId env => (db.commit codec env txnId).map (Reply.ofResult fun _ => .done) id
  | .rollback txnId => (db.rollback codec txnId).map (Reply.ofResult fun _ => .done) id
  | .flushNow writes => (db.flushNow writes).map (Reply.ofResult (.flushed ∘ some)) id
  | .flush writes => (db.flush writes).map (Reply.ofResult .flushed) id
  | .checkpoint writes => (db.checkpoint codec writes).map (Reply.ofResult fun _ => .done) id
  | .compact writes watermark =>
      (db.compact writes watermark).map (Reply.ofResult fun n => .compacted n.1 n.2) id

/-- The events of a list of calls and the engine after them. -/
abbrev run (db : Engine) (ops : List Op) : List (Op × Reply) × Engine := runs (step codec) db ops

end Engine

/-- An event in the life of a data directory: a call, or the end of the session
and a new open. A drop keeps all bytes of the last WAL segment, a crash only the
first `kept`. -/
inductive LifeOp
  | call (op : Op)
  | reopen (kept : Option Nat) (env : OpenEnv) (config : Z1Config)

/-- Cut the last segment of a WAL directory. -/
def WalDir.cutLast (dir : WalDir) : Option Nat → WalDir
  | none => dir
  | some kept =>
      match dir.getLast? with
      | none => dir
      | some file => dir.dropLast ++ [(file.1, file.2.take kept)]

def DataDir.cut (dir : DataDir) (kept : Option Nat) : DataDir :=
  { dir with wal := dir.wal.cutLast kept }

inductive LifeReply
  | replied (reply : Reply)
  | opened
  | openFailed (e : Z1Error)
  | notOpen

/-- One event of a life. After a failed open there is no engine. -/
def lifeStep (codec : Codec) (maxFileSize : Nat) (db : Option Engine) (op : LifeOp) :
    LifeReply × Option Engine :=
  match db with
  | none => (.notOpen, none)
  | some db =>
      match op with
      | .call op => (.replied (db.step codec op).1, some (db.step codec op).2)
      | .reopen kept env config =>
          match Engine.openWithConfig codec maxFileSize env config ((db.close codec).cut kept) with
          | .ok db => (.opened, some db)
          | .error e => (.openFailed e, none)

theorem ok_of_toOption {α : Type} {result : Except Z1Error α} {a : α}
    (h : result.toOption = some a) : result = .ok a := by
  cases result with
  | error e => cases h
  | ok b => rw [Option.some.inj h]

/-- A life that starts with an open on an empty directory: its events, and the
engine at the end if the last open succeeded. -/
def life (codec : Codec) (maxFileSize : Nat) (env : OpenEnv) (config : Z1Config)
    (ops : List LifeOp) : List (LifeOp × LifeReply) × Option Engine :=
  runs (lifeStep codec maxFileSize)
    (Engine.openWithConfig codec maxFileSize env config {}).toOption ops

end Z1Kv
