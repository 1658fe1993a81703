import Z1Kv.Txn.Snapshots

/-! What an open finds on a data directory whose WAL is a clean log: it succeeds,
the history is that of the checkpoint and of the log together, and the layers
hold the patches and the replayed writes. -/
namespace Z1Kv

/-- The version that a Put record stands for. -/
def WalEntry.version? (op : WalEntry) : Option Z1Entry :=
  match op.record with
  | .put cf key value => some ⟨⟨cf, key⟩, op.txnId, value⟩
  | _ => none

/-- Replay of operations into L1 puts their versions. -/
def MemStore.replayOps (l1 : MemStore) (ops : List WalEntry) : MemStore :=
  (ops.filterMap WalEntry.version?).foldl MemStore.replayPut l1

theorem replayIntoL1_eq (l1 : MemStore) (op : WalEntry) :
    replayIntoL1 l1 op = (.ok (), l1.replayOps [op]) := by
  obtain ⟨txnId, record⟩ := op
  cases record <;> rfl

theorem MemStore.replayOps_append (l1 : MemStore) (first second : List WalEntry) :
    l1.replayOps (first ++ second) = (l1.replayOps first).replayOps second := by
  simp [replayOps, List.filterMap_append, List.foldl_append]

theorem applyOps_replayIntoL1 (l1 : MemStore) (ops : List WalEntry) :
    applyOps replayIntoL1 l1 ops = (none, l1.replayOps ops) := by
  induction ops generalizing l1 with
  | nil => rfl
  | cons op rest ih =>
      rw [applyOps, replayIntoL1_eq]
      dsimp only
      rw [ih, ← MemStore.replayOps_append]
      rfl

/-- The second phase succeeds and applies the pending operations of the listed
transactions that have any. -/
theorem replayTxns_replayIntoL1 (strictMode : Bool) (scan : ReplayScan) (txns : List TxnId)
    (result : RecoveryResult) (l1 : MemStore) :
    ∃ result', replayTxns replayIntoL1 strictMode scan txns result l1 =
        .ok (result', l1.replayOps (txns.flatMap fun t => (AList.lookup t scan.pending).getD [])) ∧
      result'.maxSeenCommittedTxn = result.maxSeenCommittedTxn ∧
      ∀ t, t ∈ result'.commitTsMap ↔ t ∈ result.commitTsMap ∨ t ∈ txns ∧ t ∈ scan.pending := by
  induction txns generalizing result l1 with
  | nil => exact ⟨result, rfl, rfl, by simp⟩
  | cons first rest ih =>
      rw [replayTxns, List.flatMap_cons, MemStore.replayOps_append]
      cases hPending : AList.lookup first scan.pending with
      | none =>
          obtain ⟨result', hEq, hMax, hMem⟩ := ih result l1
          refine ⟨result', hEq, hMax, fun t => ?_⟩
          have hNot : first ∉ scan.pending := AList.lookup_eq_none.mp hPending
          rw [hMem t, List.mem_cons]
          grind
      | some ops =>
          dsimp only
          rw [applyOps_replayIntoL1]
          obtain ⟨result', hEq, hMax, hMem⟩ := ih
            { result with
              lastCommittedTxn := max result.lastCommittedTxn first
              committedCount := result.committedCount + 1
              commitTsMap := AList.insert first
                ((AList.lookup first scan.committedTxns).getD 0) result.commitTsMap
              committedPuts := result.committedPuts ++ ops.filterMap fun op =>
                match op.record with
                | .put _ _ _ => some (first, op.record)
                | _ => none }
            (l1.replayOps ops)
          refine ⟨result', hEq, hMax, fun t => ?_⟩
          have hIn : first ∈ scan.pending := FinMap.mem_iff_lookup.mpr ⟨ops, hPending⟩
          rw [hMem t, AList.mem_insert, List.mem_cons]
          grind

/-- A transaction that recovery brings back from the log. -/
def Replayed (entries : List WalEntry) (t : TxnId) : Prop :=
  HasCommit entries t ∧ livePuts t entries ≠ []

/-- A transaction that recovery takes from the log: it has a Commit record and
pending operations, possibly none. -/
def InLog (entries : List WalEntry) (t : TxnId) : Prop :=
  HasCommit entries t ∧ t ∈ (replayScan entries).pending

theorem inLog_iff {entries : List WalEntry} (hBegin : ∀ e ∈ entries, e.record ≠ .begin) {t : TxnId} :
    InLog entries t ↔ Replayed entries t := by
  rw [InLog, Replayed, mem_pending hBegin]

/-- Replay of a log that can be read: nothing fails, the live Put records of the
transactions with a Commit record are applied, and those with pending operations
come back. -/
theorem replayCommittedOps_readable {codec : Codec} {dir : WalDir} {entries : List WalEntry}
    (hReplay : replayAll codec dir = .ok entries) (strictMode : Bool) (l1 : MemStore) :
    ∃ (recovery : RecoveryResult) (txns : List TxnId),
      replayCommittedOps replayIntoL1 codec dir strictMode l1 =
        .ok (recovery, l1.replayOps (txns.flatMap fun t => livePuts t entries)) ∧
      txns.Nodup ∧ (∀ t, t ∈ txns ↔ HasCommit entries t) ∧
      recovery.maxSeenCommittedTxn = (replayScan entries).maxSeenCommitted ∧
      ∀ t, t ∈ recovery.commitTsMap ↔ InLog entries t := by
  unfold replayCommittedOps
  rw [hReplay]
  dsimp only
  obtain ⟨result, hEq, hMax, hMem⟩ := replayTxns_replayIntoL1 strictMode (replayScan entries)
    ((replayScan entries).committedTxns.keys.insertionSort (· ≤ ·))
    { maxSeenCommittedTxn := (replayScan entries).maxSeenCommitted
      replayWatermark := (replayScan entries).maxInsertedAt
      insertedAtMap := (replayScan entries).insertedAtMap
      discardedCount := ((replayScan entries).pending.keys.filter fun txnId =>
        txnId ∉ (replayScan entries).committedTxns ∧
          txnId ∉ (replayScan entries).rolledBack).length } l1
  have hListed : ∀ t, t ∈ (replayScan entries).committedTxns.keys.insertionSort (· ≤ ·) ↔
      HasCommit entries t := by
    intro t
    rw [List.mem_insertionSort, ← mem_committedTxns]
    exact AList.mem_keys.symm
  refine ⟨result, _, ?_, ?_, hListed, hMax, fun t => ?_⟩
  · rw [hEq]
    simp only [pending_getD]
  · exact (List.perm_insertionSort _ _).nodup_iff.mpr (AList.keys_nodup _)
  · rw [hMem t, hListed]
    exact ⟨fun h => h.resolve_left (AList.notMem_empty t), Or.inr⟩

theorem replayCommittedOps_spec {codec : Codec} {dir : WalDir} {entries : List WalEntry}
    (hReplay : replayAll codec dir = .ok entries) (hBegin : ∀ e ∈ entries, e.record ≠ .begin)
    (strictMode : Bool) (l1 : MemStore) :
    ∃ (recovery : RecoveryResult) (txns : List TxnId),
      replayCommittedOps replayIntoL1 codec dir strictMode l1 =
        .ok (recovery, l1.replayOps (txns.flatMap fun t => livePuts t entries)) ∧
      txns.Nodup ∧ (∀ t, t ∈ txns ↔ HasCommit entries t) ∧
      recovery.maxSeenCommittedTxn = (replayScan entries).maxSeenCommitted ∧
      ∀ t, t ∈ recovery.commitTsMap ↔ Replayed entries t := by
  obtain ⟨recovery, txns, hEq, hNodup, hTxns, hMax, hMem⟩ :=
    replayCommittedOps_readable hReplay strictMode l1
  exact ⟨recovery, txns, hEq, hNodup, hTxns, hMax, fun t => (hMem t).trans (inLog_iff hBegin)⟩

theorem MemStore.replayOps_hot (l1 : MemStore) (ops : List WalEntry) :
    (l1.replayOps ops).hot = l1.hot.putAll (ops.filterMap WalEntry.version?) ∧
      (l1.replayOps ops).cold = l1.cold ∧ (l1.replayOps ops).snapshot = l1.snapshot := by
  unfold replayOps VersionMap.putAll
  generalize ops.filterMap WalEntry.version? = versions
  induction versions generalizing l1 with
  | nil => exact ⟨rfl, rfl, rfl⟩
  | cons e rest ih => exact ih (l1.replayPut e)

/-- Transactions in the history of the latest checkpoint. -/
def CheckpointDir.history (ckpts : CheckpointDir) : List TxnId :=
  (ckpts.recoveryBaseline.getD (0, [])).2.map Prod.fst

theorem mem_mergeHistory {checkpoint : List (TxnId × Nat)} {wal : FinMap TxnId Nat} {t : TxnId} :
    t ∈ mergeHistory checkpoint wal ↔ t ∈ checkpoint.map Prod.fst ∨ t ∈ wal := by
  rw [mergeHistory, FinMap.mem_insertAll, FinMap.mem_insertAll, List.map_map]
  have hKeys : t ∈ List.map (Prod.fst ∘ fun e : (_ : TxnId) × Nat => (e.1, e.2)) wal.entries ↔ t ∈ wal :=
    AList.mem_keys.symm
  rw [hKeys]
  simp

/-- An engine opened on a directory whose WAL holds these entries. -/
structure Engine.Recovered (dir : DataDir) (entries : List WalEntry) (db : Engine) : Prop where
  sound : db.Sound
  history : ∀ t, t ∈ db.mvcc.committedHistory ↔ t ∈ dir.checkpoints.history ∨ Replayed entries t
  l2 : ∀ e, e ∈ db.store.l2.versions ↔ e ∈ dir.l2.flatMap Patch.versions
  l3 : ∀ e, e ∈ db.store.l3.versions ↔ e ∈ dir.l3.flatMap Patch.versions
  beyond : ∀ e, e ∈ db.store.beyondHot ↔ e ∈ db.store.l2.versions ∨ e ∈ db.store.l3.versions
  hot : ∀ e ∈ db.store.l1.hot.values, HasCommit entries e.txnId ∧
    ∃ op ∈ livePuts e.txnId entries, op.version? = some e
  hotLast : ∀ e before after, HasCommit entries e.txnId →
    (livePuts e.txnId entries).filterMap WalEntry.version? = before ++ e :: after →
    (∀ later ∈ after, later.id ≠ e.id) → e ∈ db.store.l1.hot.values

theorem DiskLayer.mem_open {env : OpenEnv} {files : List Patch} {e : Z1Entry} :
    e ∈ (DiskLayer.open env files).versions ↔ e ∈ files.flatMap Patch.versions := by
  rw [versions, List.mem_flatMap, List.mem_flatMap]
  constructor
  · rintro ⟨p, hp, hpe⟩
    exact ⟨p, (open_perm env files).mem_iff.mp hp, hpe⟩
  · rintro ⟨p, hp, hpe⟩
    exact ⟨p, (open_perm env files).mem_iff.mpr hp, hpe⟩

theorem version?_txnId {op : WalEntry} {e : Z1Entry} (h : op.version? = some e) : e.txnId = op.txnId := by
  unfold WalEntry.version? at h
  split at h
  · rw [← Option.some.inj h]
  · cases h

/-- The last replayed version of an id is the one in the hot buffer. -/
theorem mem_replayed {entries : List WalEntry} {txns : List TxnId} {m : VersionMap}
    (hNodup : txns.Nodup) {e : Z1Entry} (hTxn : e.txnId ∈ txns) {before after : List Z1Entry}
    (hOps : (livePuts e.txnId entries).filterMap WalEntry.version? = before ++ e :: after)
    (hLast : ∀ later ∈ after, later.id ≠ e.id) :
    e ∈ (m.putAll ((txns.flatMap fun t => livePuts t entries).filterMap
      WalEntry.version?)).values := by
  obtain ⟨pre, post, rfl⟩ := List.append_of_mem hTxn
  have hOther : e.txnId ∉ post := (List.nodup_cons.mp (List.nodup_append.mp hNodup).2.1).1
  rw [List.flatMap_append, List.flatMap_cons, List.filterMap_append, List.filterMap_append, hOps,
    List.append_assoc, List.cons_append, ← List.append_assoc]
  apply VersionMap.mem_putAll_last
  intro later hLater hId
  rcases List.mem_append.mp hLater with hLater | hLater
  · exact hLast later hLater hId
  · obtain ⟨op, hOp, hVersion⟩ := List.mem_filterMap.mp hLater
    obtain ⟨t, ht, hLive⟩ := List.mem_flatMap.mp hOp
    have hSame : t = e.txnId := by
      rw [← (mem_livePuts hLive).2.1, ← version?_txnId hVersion]
      exact (Prod.mk.inj hId).2
    exact hOther (hSame ▸ ht)

/-- An engine opened on a directory whose WAL reads as these entries, whatever
they are. -/
structure Engine.Opened (dir : DataDir) (entries : List WalEntry) (db : Engine) : Prop where
  sound : db.Sound
  history : ∀ t, t ∈ db.mvcc.committedHistory ↔ t ∈ dir.checkpoints.history ∨ InLog entries t
  l2 : ∀ e, e ∈ db.store.l2.versions ↔ e ∈ dir.l2.flatMap Patch.versions
  l3 : ∀ e, e ∈ db.store.l3.versions ↔ e ∈ dir.l3.flatMap Patch.versions
  beyond : ∀ e, e ∈ db.store.beyondHot ↔ e ∈ db.store.l2.versions ∨ e ∈ db.store.l3.versions
  hot : ∀ e ∈ db.store.l1.hot.values, HasCommit entries e.txnId ∧
    ∃ op ∈ livePuts e.txnId entries, op.version? = some e
  hotLast : ∀ e before after, HasCommit entries e.txnId →
    (livePuts e.txnId entries).filterMap WalEntry.version? = before ++ e :: after →
    (∀ later ∈ after, later.id ≠ e.id) → e ∈ db.store.l1.hot.values

theorem Engine.Opened.recovered {dir : DataDir} {entries : List WalEntry} {db : Engine}
    (h : db.Opened dir entries) (hBegin : ∀ e ∈ entries, e.record ≠ .begin) :
    db.Recovered dir entries :=
  ⟨h.sound, fun t => by rw [h.history, inLog_iff hBegin], h.l2, h.l3, h.beyond, h.hot, h.hotLast⟩

/-- An open on a log that can be read succeeds. -/
theorem open_readable {codec : Codec} {maxFileSize : Nat} {env : OpenEnv} {config : Z1Config}
    {dir : DataDir} {entries : List WalEntry}
    (hReplay : replayAll codec (WalWriter.openLatest dir.wal (sessionConfig maxFileSize)).dir =
      .ok entries) :
    ∃ db, Engine.openWithConfig codec maxFileSize env config dir = .ok db ∧
      db.Opened dir entries := by
  obtain ⟨recovery, txns, hEq, hNodup, hTxns, -, hMem⟩ := replayCommittedOps_readable hReplay
    config.strictMode (MemStore.new (64 * 1024 * 1024))
  have hOpens : ∃ db, Engine.openWithConfig codec maxFileSize env config dir = .ok db := by
    unfold Engine.openWithConfig
    dsimp only
    rw [hEq]
    exact ⟨_, rfl⟩
  obtain ⟨db, hDb⟩ := hOpens
  refine ⟨db, hDb, ?_⟩
  have hSound := Engine.sound_of_open hDb
  obtain ⟨recovery', l1, hReplay', hState⟩ := Engine.openWithConfig_cases hDb
  rw [hEq] at hReplay'
  obtain ⟨rfl, rfl⟩ := Prod.mk.inj (Except.ok.inj hReplay')
  obtain ⟨hHot, hCold, hSnapshot⟩ := MemStore.replayOps_hot (MemStore.new (64 * 1024 * 1024))
    (txns.flatMap fun t => livePuts t entries)
  have hL1 : db.store.l1 = (MemStore.new (64 * 1024 * 1024)).replayOps
      (txns.flatMap fun t => livePuts t entries) := by rw [hState]
  refine ⟨hSound, ?_, ?_, ?_, ?_, ?_, ?_⟩
  · intro t
    have hHistory : t ∈ db.mvcc.committedHistory ↔ t ∈ mergeHistory
        (dir.checkpoints.recoveryBaseline.getD (0, [])).2 recovery.commitTsMap := by
      rw [hState]
      dsimp only [VisibilityManager.setReplayWatermark]
      rw [(VisibilityManager.recoverCommittedHistory_spec _ _ _ _).2.2.1 t, List.map_map]
      exact AList.mem_keys.symm
    rw [hHistory, mem_mergeHistory, hMem]
    rfl
  · intro e
    rw [hState]
    exact DiskLayer.mem_open
  · intro e
    rw [hState]
    exact DiskLayer.mem_open
  · intro e
    have hCache : db.store.recentFlush = ∅ := by rw [hState]
    have hColdEmpty : db.store.l1.cold = ∅ := by rw [hL1, hCold]; rfl
    have hSnapshotEmpty : db.store.l1.snapshot = ∅ := by rw [hL1, hSnapshot]; rfl
    simp only [Store.beyondHot, List.mem_append, hColdEmpty, hSnapshotEmpty, hCache,
      VersionMap.values_empty, List.not_mem_nil, false_or]
  · intro e he
    rw [hL1, hHot] at he
    rcases VersionMap.mem_values_putAll he with he | ⟨he, -⟩
    · obtain ⟨op, hOp, hVersion⟩ := List.mem_filterMap.mp he
      obtain ⟨t, ht, hLive⟩ := List.mem_flatMap.mp hOp
      obtain rfl : t = e.txnId := by
        rw [version?_txnId hVersion, (mem_livePuts hLive).2.1]
      exact ⟨(hTxns _).mp ht, op, hLive, hVersion⟩
    · cases he
  · intro e before after hCommit hOps hLast
    rw [hL1, hHot]
    exact mem_replayed hNodup ((hTxns _).mpr hCommit) hOps hLast

/-- An open that succeeded has read the log. -/
theorem Engine.Opened.of_open {codec : Codec} {maxFileSize : Nat} {env : OpenEnv} {config : Z1Config}
    {dir : DataDir} {db : Engine}
    (h : Engine.openWithConfig codec maxFileSize env config dir = .ok db) :
    ∃ entries, replayAll codec (WalWriter.openLatest dir.wal (sessionConfig maxFileSize)).dir =
      .ok entries ∧ db.Opened dir entries := by
  obtain ⟨recovery, l1, hRecovery, -⟩ := Engine.openWithConfig_cases h
  unfold replayCommittedOps at hRecovery
  split at hRecovery
  · cases hRecovery
  · next entries hReplay =>
    obtain ⟨opened, hOpens, hOpened⟩ := @open_readable codec maxFileSize env config dir entries hReplay
    obtain rfl := Except.ok.inj (hOpens.symm.trans h)
    exact ⟨entries, hReplay, hOpened⟩

/-- An open on a log without Begin records, as the engine writes it. -/
theorem open_recovers {codec : Codec} {maxFileSize : Nat} {env : OpenEnv} {config : Z1Config}
    {dir : DataDir} {entries : List WalEntry}
    (hReplay : replayAll codec (WalWriter.openLatest dir.wal (sessionConfig maxFileSize)).dir =
      .ok entries) (hBegin : ∀ e ∈ entries, e.record ≠ .begin) :
    ∃ db, Engine.openWithConfig codec maxFileSize env config dir = .ok db ∧
      db.Recovered dir entries := by
  obtain ⟨db, hDb, hOpened⟩ := open_readable hReplay
  exact ⟨db, hDb, hOpened.recovered hBegin⟩

end Z1Kv
