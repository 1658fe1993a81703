import Mathlib.Data.Finset.Dedup
import Z1Kv.Library.FiniteMap
import Z1Kv.Error

/-! The MVCC visibility manager: active transactions with their read and write
sets, the committed history with its eviction, and snapshots. Clock readings and
the iteration order of hash maps are arguments. -/
namespace Z1Kv

structure VisibilityConfig where
  maxHistoryEntries : Nat := 100000
  historyTtlSecs : Nat := 3600
  deriving DecidableEq

/-- Metadata of an active transaction. The hash sets of keys are listed without
repetition. -/
structure TxnMeta where
  beginTs : TxnId
  readKeys : List Bytes := []
  writtenKeys : List Bytes := []
  deriving DecidableEq

def TxnMeta.recordRead (txn : TxnMeta) (key : Bytes) : TxnMeta :=
  { txn with readKeys := txn.readKeys.insert key }

def TxnMeta.recordWrite (txn : TxnMeta) (key : Bytes) : TxnMeta :=
  { txn with writtenKeys := txn.writtenKeys.insert key }

structure TxnSnapshot where
  snapshotId : TxnId
  activeTxns : Finset TxnId
  commitTsMap : FinMap TxnId Nat

/-- A version written by this transaction is visible: not from the future, not
still active, and present in the commit history with a commit timestamp that is
not from the future either. -/
def TxnSnapshot.sees (snap : TxnSnapshot) (txnId : TxnId) : Bool :=
  if txnId > snap.snapshotId then false
  else if txnId ∈ snap.activeTxns then false
  else
    match AList.lookup txnId snap.commitTsMap with
    | some commitTs => commitTs ≤ snap.snapshotId
    | none => false

/-- Value of `committed_history`: when a transaction committed, and when it was
entered, which is what its eviction goes by. -/
structure HistoryEntry where
  commitTs : Nat
  insertedAt : Nat
  deriving DecidableEq

/-- An iteration order of hash maps and hash sets: some permutation of what they
contain. -/
structure HashOrder where
  txns : List TxnId → List TxnId
  keys : List Bytes → List Bytes
  txns_perm : ∀ l, (txns l).Perm l
  keys_perm : ∀ l, (keys l).Perm l

def HashOrder.listed : HashOrder := ⟨id, id, fun _ => .refl _, fun _ => .refl _⟩

structure VisibilityManager where
  committedTxn : TxnId
  replayWatermark : Nat
  activeTxns : FinMap TxnId TxnMeta
  committedHistory : FinMap TxnId HistoryEntry
  committedTsShadow : FinMap TxnId Nat
  commitSeq : Nat
  lastTtlCheckSeq : Nat
  lastTtlCheckMs : Nat
  config : VisibilityConfig

namespace VisibilityManager

def newWithConfig (config : VisibilityConfig) : VisibilityManager where
  committedTxn := 0
  replayWatermark := 0
  activeTxns := ∅
  committedHistory := ∅
  committedTsShadow := ∅
  commitSeq := 0
  lastTtlCheckSeq := 0
  lastTtlCheckMs := 0
  config := config

def setCommittedTxn (m : VisibilityManager) (txnId : TxnId) : VisibilityManager :=
  { m with committedTxn := txnId }

def setReplayWatermark (m : VisibilityManager) (watermark : Nat) : VisibilityManager :=
  { m with replayWatermark := watermark }

def beginTxn (m : VisibilityManager) (txnId : TxnId) : Except MvccConflict VisibilityManager :=
  if txnId ∈ m.activeTxns then .error (.alreadyActive txnId)
  else if txnId ≤ m.committedTxn then .error (.alreadyCommitted txnId)
  else .ok { m with activeTxns := AList.insert txnId { beginTs := txnId } m.activeTxns }

/-- Snapshot of the current state, with the commit history up to its id. -/
def snapshot (m : VisibilityManager) : TxnSnapshot :=
  let maxCommitTs := (m.committedHistory.entries.map fun e => e.2.commitTs).foldr max 0
  let snapshotId := max m.committedTxn maxCommitTs
  { snapshotId
    activeTxns := m.activeTxns.keys.toFinset
    commitTsMap :=
      ⟨(m.committedHistory.retain fun _ e => e.commitTs ≤ snapshotId).entries.map
          fun e => ⟨e.1, e.2.commitTs⟩,
        by
          rw [List.NodupKeys, List.keys, List.map_map]
          exact (m.committedHistory.retain _).nodupKeys⟩ }

/-- Register a transaction and take its snapshot. -/
def beginTxnWithSnapshot (m : VisibilityManager) (txnId : TxnId) :
    Except MvccConflict (TxnSnapshot × VisibilityManager) :=
  (m.beginTxn txnId).map fun m => (m.snapshot, m)

def modifyActive (m : VisibilityManager) (txnId : TxnId) (f : TxnMeta → TxnMeta) :
    VisibilityManager :=
  match AList.lookup txnId m.activeTxns with
  | some txn => { m with activeTxns := AList.insert txnId (f txn) m.activeTxns }
  | none => m

/-- Reads of a transaction that is not active are not recorded. -/
def recordRead (m : VisibilityManager) (txnId : TxnId) (key : Bytes) : VisibilityManager :=
  m.modifyActive txnId (·.recordRead key)

def recordWrite (m : VisibilityManager) (txnId : TxnId) (key : Bytes) : VisibilityManager :=
  m.modifyActive txnId (·.recordWrite key)

def abortTxn (m : VisibilityManager) (txnId : TxnId) : VisibilityManager :=
  { m with activeTxns := AList.erase txnId m.activeTxns }

def rollbackTxn (m : VisibilityManager) (txnId : TxnId) : VisibilityManager := m.abortTxn txnId

/-- The index from a key to the other active transactions whose key set has it. -/
def keyIndex (m : VisibilityManager) (order : HashOrder) (txnId : TxnId)
    (keysOf : TxnMeta → List Bytes) : FinMap Bytes (List TxnId) :=
  (order.txns m.activeTxns.keys).foldl (fun index otherId =>
    if otherId = txnId then index
    else
      match AList.lookup otherId m.activeTxns with
      | some other =>
          (order.keys (keysOf other)).foldl (fun index key =>
            AList.insert key ((AList.lookup key index).getD [] ++ [otherId]) index) index
      | none => index) ∅

/-- First transaction the index lists under this key. -/
def firstListed (index : FinMap Bytes (List TxnId)) (key : Bytes) : Option TxnId :=
  (AList.lookup key index).bind List.head?

/-- The SSI check: keys read against other writers, and only if that finds
nothing, keys written against other readers and writers. -/
def ssiConflict (m : VisibilityManager) (order : HashOrder) (txnId : TxnId) (txn : TxnMeta) :
    Option MvccConflict :=
  let keyWriters := m.keyIndex order txnId TxnMeta.writtenKeys
  let keyReaders := m.keyIndex order txnId TxnMeta.readKeys
  match (order.keys txn.readKeys).findSome? (firstListed keyWriters) with
  | some other => some (.ssiConflict txnId other true false)
  | none =>
      match (order.keys txn.writtenKeys).findSome? fun key =>
          (firstListed keyReaders key).or (firstListed keyWriters key) with
      | some other => some (.ssiConflict txnId other false true)
      | none => none

/-- Entries by ascending insertion time, ties as the map iterates. -/
def evictionOrder (m : VisibilityManager) (order : HashOrder) : List (Nat × TxnId) :=
  ((order.txns m.committedHistory.keys).filterMap fun txnId =>
    (AList.lookup txnId m.committedHistory).map fun e => (e.insertedAt, txnId)).insertionSort
      (·.1 ≤ ·.1)

def evictCount (m : VisibilityManager) : Nat :=
  m.committedHistory.keys.length - m.config.maxHistoryEntries * 4 % 2 ^ 64 / 5

/-- Count-based eviction: above the limit, the oldest entries go until four
fifths of the limit are left. -/
def pruneByCount (m : VisibilityManager) (order : HashOrder) : VisibilityManager :=
  if m.committedHistory.keys.length > m.config.maxHistoryEntries then
    let evicted := ((m.evictionOrder order).take m.evictCount).map Prod.snd
    let history := m.committedHistory.eraseAll evicted
    { m with
      committedHistory := history
      committedTsShadow := m.committedTsShadow.retain fun txnId _ => txnId ∈ history }
  else m

/-- The time-based step runs every 256 commits or after a second. -/
def ttlCheckDue (m : VisibilityManager) (nowMs : Nat) : Bool :=
  (m.commitSeq + 2 ^ 64 - m.lastTtlCheckSeq) % 2 ^ 64 ≥ 256 || nowMs - m.lastTtlCheckMs ≥ 1000

def ttlMs (m : VisibilityManager) : Nat := m.config.historyTtlSecs * 1000 % 2 ^ 64

/-- Time-based eviction of everything entered before the cutoff, the larger of
the TTL bound and the replay watermark. -/
def pruneByTime (m : VisibilityManager) (nowMs : Nat) : VisibilityManager :=
  if m.ttlCheckDue nowMs then
    let ttlCutoff := nowMs - m.ttlMs
    let cutoff := max ttlCutoff m.replayWatermark
    let history := m.committedHistory.retain fun _ e => e.insertedAt ≥ cutoff
    { m with
      lastTtlCheckSeq := m.commitSeq
      lastTtlCheckMs := nowMs
      committedHistory := history
      committedTsShadow := m.committedTsShadow.retain fun txnId _ => txnId ∈ history }
  else m

def pruneHistory (m : VisibilityManager) (order : HashOrder) (nowMs : Nat) : VisibilityManager :=
  (m.pruneByCount order).pruneByTime nowMs

/-- The manager between the entry of a commit into the history and the prune
that follows. -/
def enterCommit (m : VisibilityManager) (txnId : TxnId) (ts insertedAt : Nat) : VisibilityManager :=
  { m with
    committedTxn := max m.committedTxn txnId
    committedHistory := AList.insert txnId ⟨ts, insertedAt⟩ m.committedHistory
    commitSeq := (m.commitSeq + 1) % 2 ^ 64
    committedTsShadow := AList.insert txnId ts m.committedTsShadow }

/-- Commit a transaction: SSI check, history entry, prune, removal from the
active set. `ts` and `nowMs` are the two clock readings of the call. -/
def commitTxn (m : VisibilityManager) (order : HashOrder) (txnId : TxnId)
    (insertedAt ts nowMs : Nat) : Except MvccConflict TxnSnapshot × VisibilityManager :=
  match AList.lookup txnId m.activeTxns with
  | none => (.error (.notActive txnId), m)
  | some txn =>
      match m.ssiConflict order txnId txn with
      | some conflict => (.error conflict, m.abortTxn txnId)
      | none =>
          let m := (m.enterCommit txnId ts insertedAt).pruneHistory order nowMs
          let m := m.abortTxn txnId
          (.ok m.snapshot, m)

/-- Smallest begin timestamp of an active transaction. -/
def oldestActiveBeginTs (m : VisibilityManager) : TxnId :=
  ((m.activeTxns.entries.map fun e => e.2.beginTs).min?).getD u64Max

def getBeginTs (m : VisibilityManager) (txnId : TxnId) : Option TxnId :=
  (AList.lookup txnId m.activeTxns).map TxnMeta.beginTs

def committedEntry (m : VisibilityManager) (txnId : TxnId) : Option (Nat × Nat) :=
  (AList.lookup txnId m.committedHistory).map fun e => (e.commitTs, e.insertedAt)

/-- Load a recovered history. An entry without an insertion time of its own gets
the current time. The shadow map is not touched. -/
def recoverCommittedHistory (m : VisibilityManager) (history : List (TxnId × Nat))
    (walInsertedAt : FinMap TxnId Nat) (now : Nat) : VisibilityManager :=
  history.foldl (fun m pair =>
    { m with
      committedHistory := AList.insert pair.1
        ⟨pair.2, (AList.lookup pair.1 walInsertedAt).getD now⟩ m.committedHistory
      committedTxn := max m.committedTxn pair.1 })
    { m with committedHistory := ∅ }

def committedHistoryEntries (m : VisibilityManager) : List (TxnId × Nat) :=
  m.committedHistory.ascending.map fun pair => (pair.1, pair.2.commitTs)

end VisibilityManager
end Z1Kv
