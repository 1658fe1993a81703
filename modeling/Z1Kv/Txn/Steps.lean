import Z1Kv.Mvcc.History
import Z1Kv.Store.Effects
import Z1Kv.Txn.Open

/-! What one call can do, said once: to the visibility manager, to the pinned and
cached snapshots, and to the versions in the layers. -/
namespace Z1Kv

/-- The version that a call writes. -/
def Op.write? : Op → Option Z1Entry
  | .put cf key value txnId => some ⟨⟨cf, key⟩, txnId, some value⟩
  | .delete cf key txnId => some ⟨⟨cf, key⟩, txnId, none⟩
  | _ => none

namespace Engine
variable {codec : Codec} {db : Engine} {op : Op}

theorem ensureActiveTxn_cases (db : Engine) (txnId : TxnId) :
    (txnId ∈ db.mvcc.activeTxns ∧ db.ensureActiveTxn txnId = .ok ()) ∨
      (txnId ∉ db.mvcc.activeTxns ∧ db.ensureActiveTxn txnId = .error (.txnNotFound txnId)) := by
  unfold ensureActiveTxn VisibilityManager.getBeginTs
  cases h : AList.lookup txnId db.mvcc.activeTxns with
  | none => exact Or.inr ⟨AList.lookup_eq_none.mp h, rfl⟩
  | some txn => exact Or.inl ⟨FinMap.mem_iff_lookup.mpr ⟨txn, h⟩, rfl⟩

/-- A begin either registers a new transaction with its snapshot or fails, having
used up ids. -/
theorem beginAttempts_cases (db : Engine) (attempts : Nat) :
    (∃ e counter cache, db.beginAttempts attempts =
        (.error e, { db with txnCounter := counter, snapshotCache := cache }) ∧
      (cache = db.snapshotCache ∨ cache.fullCache = none) ∧ db.txnCounter ≤ counter) ∨
    ∃ txnId mvcc cache, db.mvcc.beginTxn txnId = .ok mvcc ∧ cache.fullCache = none ∧
      db.txnCounter ≤ txnId ∧
      db.beginAttempts attempts =
        (.ok txnId,
          { db with
            mvcc
            txnCounter := txnId + 1
            snapshotCache := cache
            txnSnapshots := AList.insert txnId mvcc.snapshot db.txnSnapshots }) := by
  induction attempts generalizing db with
  | zero => exact Or.inl ⟨_, db.txnCounter, db.snapshotCache, rfl, Or.inl rfl, le_rfl⟩
  | succ attempts ih =>
      rw [beginAttempts]
      unfold nextTxnId
      split
      · next h =>
        split at h
        · exact Or.inl ⟨_, db.txnCounter, db.snapshotCache, rfl, Or.inl rfl, le_rfl⟩
        · cases h
      · next txnId after h =>
        split at h
        · cases h
        · obtain ⟨rfl, rfl⟩ := Prod.mk.inj (Except.ok.inj h)
          dsimp only
          unfold VisibilityManager.beginTxnWithSnapshot
          cases hBegin : db.mvcc.beginTxn db.txnCounter with
          | ok mvcc =>
              exact Or.inr ⟨db.txnCounter, mvcc, db.snapshotCache.invalidate, hBegin, rfl, le_rfl, rfl⟩
          | error conflict =>
              have hFail : ∀ e : Z1Error, ∃ e' counter cache,
                  ((.error e : Except Z1Error TxnId),
                    { db with
                      txnCounter := db.txnCounter + 1
                      snapshotCache := db.snapshotCache.invalidate }) =
                    (.error e', { db with txnCounter := counter, snapshotCache := cache }) ∧
                  (cache = db.snapshotCache ∨ cache.fullCache = none) ∧ db.txnCounter ≤ counter :=
                fun e => ⟨e, _, _, rfl, Or.inr rfl, Nat.le_succ _⟩
              cases conflict with
              | alreadyCommitted id =>
                  dsimp only [Except.map]
                  split
                  · exact Or.inl (hFail _)
                  · rcases ih { db with
                        txnCounter := db.txnCounter + 1
                        snapshotCache := db.snapshotCache.invalidate } with
                      ⟨e, counter, cache, hEq, hCache, hLe⟩ | ⟨txnId, mvcc, cache, hOk, hCache, hLe, hEq⟩
                    · refine Or.inl ⟨e, counter, cache, hEq, Or.inr ?_, Nat.le_of_succ_le hLe⟩
                      rcases hCache with rfl | hCache
                      · rfl
                      · exact hCache
                    · exact Or.inr ⟨txnId, mvcc, cache, hOk, hCache, Nat.le_of_succ_le hLe, hEq⟩
              | _ => exact Or.inl (hFail _)

/-- A write by an active transaction records, logs and inserts; any other fails. -/
theorem write_cases (codec : Codec) (db : Engine) (cf : UInt16) (key : Bytes) (value : Option Bytes)
    (txnId : TxnId) :
    (txnId ∉ db.mvcc.activeTxns ∧
      db.write codec cf key value txnId = (.error (.txnNotFound txnId), db)) ∨
    (txnId ∈ db.mvcc.activeTxns ∧
      db.write codec cf key value txnId =
        (.ok (),
          { db with
            mvcc := db.mvcc.recordWrite txnId (conflictKey cf key)
            wal := (db.wal.append codec txnId (.put cf key value)).2
            store := { db.store with l1 := db.store.l1.replayPut ⟨⟨cf, key⟩, txnId, value⟩ } })) := by
  unfold write
  rcases db.ensureActiveTxn_cases txnId with ⟨hActive, hOk⟩ | ⟨hActive, hErr⟩
  · rw [hOk]
    exact Or.inr ⟨hActive, rfl⟩
  · rw [hErr]
    exact Or.inl ⟨hActive, rfl⟩

/-- Parts of the engine that no maintenance touches. -/
structure SameTxns (db db' : Engine) : Prop where
  config : db'.config = db.config
  mvcc : db'.mvcc = db.mvcc
  snapshotCache : db'.snapshotCache = db.snapshotCache
  txnSnapshots : db'.txnSnapshots = db.txnSnapshots
  txnCounter : db'.txnCounter = db.txnCounter

theorem SameTxns.refl (db : Engine) : db.SameTxns db := ⟨rfl, rfl, rfl, rfl, rfl⟩

/-- A checkpoint, complete or not, flushes, and leaves the transactions alone. -/
theorem checkpoint_spec (codec : Codec) (db : Engine) (writes : Writes) :
    db.SameTxns (db.checkpoint codec writes).2 ∧
      (db.checkpoint codec writes).2.store = (db.store.flushL1ToL2 writes.patch).2 := by
  unfold checkpoint flushNow
  dsimp only
  generalize db.store.flushL1ToL2 writes.patch = flushed
  obtain ⟨result, store⟩ := flushed
  cases result with
  | error e => exact ⟨⟨rfl, rfl, rfl, rfl, rfl⟩, rfl⟩
  | ok groups =>
      dsimp only
      generalize db.wal.flushAndSync codec = synced
      obtain ⟨result, wal⟩ := synced
      cases result with
      | error e => exact ⟨⟨rfl, rfl, rfl, rfl, rfl⟩, rfl⟩
      | ok _ =>
          dsimp only [checkpointState, writeCheckpoint]
          generalize db.checkpoints.write writes _ = written
          obtain ⟨result, checkpoints⟩ := written
          cases result with
          | error e => exact ⟨⟨rfl, rfl, rfl, rfl, rfl⟩, rfl⟩
          | ok _ =>
              dsimp only [appendMarker]
              generalize wal.appendDurable codec _ _ = appended
              obtain ⟨result, wal⟩ := appended
              cases result with
              | error e => exact ⟨⟨rfl, rfl, rfl, rfl, rfl⟩, rfl⟩
              | ok _ => exact ⟨⟨rfl, rfl, rfl, rfl, rfl⟩, rfl⟩

theorem maintainCheckpoint_spec (codec : Codec) (db : Engine) (writes : Writes) :
    db.SameTxns (db.maintainCheckpoint codec writes).2 ∧
      ((db.maintainCheckpoint codec writes).2.store = db.store ∨
        (db.maintainCheckpoint codec writes).2.store = (db.store.flushL1ToL2 writes.patch).2) := by
  unfold maintainCheckpoint
  split
  · exact ⟨(checkpoint_spec codec db writes).1, Or.inr (checkpoint_spec codec db writes).2⟩
  · exact ⟨.refl db, Or.inl rfl⟩

/-- The layers as the compaction of the maintenance finds them, and its
watermark, if the maintenance gets there. -/
def maintenanceCompaction (codec : Codec) (db : Engine) (writes : Writes) : Option (Store × TxnId) :=
  match db.maintainCheckpoint codec writes with
  | (.error _, _) => none
  | (.ok (), db) =>
      if db.config.l2CompactionThreshold > 0 ∧
          db.store.l2.patchCount ≥ db.config.l2CompactionThreshold then
        some (db.store, db.gcWatermark)
      else none

theorem maintainCompaction_spec (db : Engine) (writes : Writes) :
    db.SameTxns (db.maintainCompaction writes).2 ∧
      ((db.maintainCompaction writes).2.store = db.store ∨
        (db.config.l2CompactionThreshold > 0 ∧
          db.store.l2.patchCount ≥ db.config.l2CompactionThreshold) ∧
        db.store.Compacted db.gcWatermark (db.maintainCompaction writes).2.store) := by
  unfold maintainCompaction
  split
  · next hOn =>
    refine ⟨⟨rfl, rfl, rfl, rfl, rfl⟩, ?_⟩
    by_cases hFull : db.store.l2.patchCount ≥ db.config.l2CompactionThreshold
    · exact Or.inr ⟨⟨hOn, hFull⟩, Store.tryCompact_spec _ _ _ _⟩
    · refine Or.inl ?_
      dsimp only
      rw [Store.tryCompact, if_neg hFull]
  · exact ⟨.refl db, Or.inl rfl⟩

/-- Maintenance may flush and then compact. -/
theorem maybeAutoMaintain_spec (codec : Codec) (db : Engine) (writes : Writes) :
    db.SameTxns (db.maybeAutoMaintain codec writes).2 ∧
      ∃ middle, (middle = db.store ∨ middle = (db.store.flushL1ToL2 writes.patch).2) ∧
        ((db.maybeAutoMaintain codec writes).2.store = middle ∨
          ∃ watermark, db.maintenanceCompaction codec writes = some (middle, watermark) ∧
            middle.Compacted watermark (db.maybeAutoMaintain codec writes).2.store) := by
  obtain ⟨hSame, hStore⟩ := db.maintainCheckpoint_spec codec writes
  unfold maybeAutoMaintain maintenanceCompaction
  generalize db.maintainCheckpoint codec writes = checkpointed at *
  obtain ⟨result, after⟩ := checkpointed
  cases result with
  | error e => exact ⟨hSame, after.store, hStore, Or.inl rfl⟩
  | ok _ =>
      obtain ⟨hSame', hStore'⟩ := after.maintainCompaction_spec writes
      refine ⟨⟨hSame'.config.trans hSame.config, hSame'.mvcc.trans hSame.mvcc,
        hSame'.snapshotCache.trans hSame.snapshotCache,
        hSame'.txnSnapshots.trans hSame.txnSnapshots,
        hSame'.txnCounter.trans hSame.txnCounter⟩, after.store, hStore, ?_⟩
      rcases hStore' with hStore' | ⟨hDue, hCompacted⟩
      · exact Or.inl hStore'
      · exact Or.inr ⟨after.gcWatermark, if_pos hDue, hCompacted⟩

/-- The engine between a successful commit and its maintenance. -/
def committing (codec : Codec) (db : Engine) (env : CommitEnv) (txnId : TxnId) : Engine :=
  { db with
    wal := (db.wal.appendDurable codec txnId (.commit txnId env.insertedAt)).2
    mvcc := db.mvcc.committed env.order txnId env.insertedAt env.ts env.nowMs
    snapshotCache := db.snapshotCache.invalidate
    txnSnapshots := AList.erase txnId db.txnSnapshots }

/-- The four outcomes of a commit. -/
theorem commit_cases (codec : Codec) (db : Engine) (env : CommitEnv) (txnId : TxnId) :
    (txnId ∉ db.mvcc.activeTxns ∧ db.commit codec env txnId = (.error (.txnNotFound txnId), db)) ∨
    (∃ e wal, txnId ∈ db.mvcc.activeTxns ∧
      db.wal.appendDurable codec txnId (.commit txnId env.insertedAt) = (.error e, wal) ∧
      db.commit codec env txnId = (.error e, { db with wal })) ∨
    (∃ txn conflict wal, AList.lookup txnId db.mvcc.activeTxns = some txn ∧
      db.mvcc.ssiConflict env.order txnId txn = some conflict ∧
      db.wal.appendDurable codec txnId (.commit txnId env.insertedAt) = (.ok (), wal) ∧
      db.commit codec env txnId =
        (.error (.mvccConflict conflict),
          { db with
            wal
            mvcc := db.mvcc.abortTxn txnId
            txnSnapshots := AList.erase txnId db.txnSnapshots })) ∨
    ∃ txn wal, AList.lookup txnId db.mvcc.activeTxns = some txn ∧
      db.mvcc.ssiConflict env.order txnId txn = none ∧
      db.wal.appendDurable codec txnId (.commit txnId env.insertedAt) = (.ok (), wal) ∧
      db.commit codec env txnId =
        (.ok (), ((db.committing codec env txnId).maybeAutoMaintain codec env.writes).2) := by
  unfold commit
  rcases db.ensureActiveTxn_cases txnId with ⟨hActive, hOk⟩ | ⟨hActive, hErr⟩
  · rw [hOk]
    dsimp only
    generalize hWal : db.wal.appendDurable codec txnId (.commit txnId env.insertedAt) = appended
    obtain ⟨result, wal⟩ := appended
    cases result with
    | error e => exact Or.inr (Or.inl ⟨e, wal, hActive, rfl, rfl⟩)
    | ok _ =>
        have hAfter : (db.wal.appendDurable codec txnId (.commit txnId env.insertedAt)).2 = wal := by
          rw [hWal]
        dsimp only
        unfold applyCommit
        dsimp only
        rcases db.mvcc.commitTxn_cases env.order txnId env.insertedAt env.ts env.nowMs with
          ⟨hNot, -⟩ | ⟨txn, conflict, hLookup, hSsi, hEq⟩ | ⟨txn, hLookup, hSsi, hEq⟩
        · exact absurd hActive hNot
        · rw [hEq]
          exact Or.inr (Or.inr (Or.inl ⟨txn, conflict, wal, hLookup, hSsi, rfl, rfl⟩))
        · rw [hEq]
          refine Or.inr (Or.inr (Or.inr ⟨txn, wal, hLookup, hSsi, rfl, ?_⟩))
          rw [committing, hAfter]
  · rw [hErr]
    exact Or.inl ⟨hActive, rfl⟩

theorem rollback_cases (codec : Codec) (db : Engine) (txnId : TxnId) :
    (txnId ∉ db.mvcc.activeTxns ∧ db.rollback codec txnId = (.error (.txnNotFound txnId), db)) ∨
    (∃ e wal, txnId ∈ db.mvcc.activeTxns ∧
      db.wal.append codec txnId .rollback = (.error e, wal) ∧
      db.rollback codec txnId =
        (.error e, { db with wal, snapshotCache := db.snapshotCache.invalidate })) ∨
    ∃ wal, txnId ∈ db.mvcc.activeTxns ∧ db.wal.append codec txnId .rollback = (.ok (), wal) ∧
      db.rollback codec txnId =
        (.ok (),
          { db with
            wal
            snapshotCache := db.snapshotCache.invalidate
            mvcc := db.mvcc.abortTxn txnId
            txnSnapshots := AList.erase txnId db.txnSnapshots }) := by
  unfold rollback
  rcases db.ensureActiveTxn_cases txnId with ⟨hActive, hOk⟩ | ⟨hActive, hErr⟩
  · rw [hOk]
    dsimp only
    generalize db.wal.append codec txnId .rollback = appended
    obtain ⟨result, wal⟩ := appended
    cases result with
    | error e => exact Or.inr (Or.inl ⟨e, wal, hActive, rfl, rfl⟩)
    | ok _ => exact Or.inr (Or.inr ⟨wal, hActive, rfl, rfl⟩)
  · rw [hErr]
    exact Or.inl ⟨hActive, rfl⟩

/-- The layers as the compaction of a call finds them, and its watermark. -/
def compaction? (codec : Codec) (db : Engine) : Op → Option (Store × TxnId)
  | .compact _ watermark => some (db.store, watermark)
  | .commit txnId env =>
      match (db.commit codec env txnId).1 with
      | .ok () => (db.committing codec env txnId).maintenanceCompaction codec env.writes
      | .error _ => none
  | _ => none

/-- What a call does to the visibility manager, with its reply. -/
inductive MvccEffect (db : Engine) : Op → Reply → VisibilityManager → Prop
  | begun {txnId : TxnId} {mvcc : VisibilityManager} (h : db.mvcc.beginTxn txnId = .ok mvcc)
      (hId : db.txnCounter ≤ txnId) : db.MvccEffect .begin (.began txnId) mvcc
  | wrote {op : Op} {e : Z1Entry} (h : op.write? = some e) (hActive : e.txnId ∈ db.mvcc.activeTxns) :
      db.MvccEffect op .done (db.mvcc.recordWrite e.txnId (conflictKey e.key.cf e.key.key))
  | read {cf : UInt16} {key : Bytes} {txnId : TxnId} {found : Option Bytes} :
      db.MvccEffect (.getForTxn cf key txnId) (.value found)
        (db.mvcc.recordRead txnId (conflictKey cf key))
  | committed {txnId : TxnId} {env : CommitEnv} {txn : TxnMeta}
      (h : AList.lookup txnId db.mvcc.activeTxns = some txn)
      (hSsi : db.mvcc.ssiConflict env.order txnId txn = none) :
      db.MvccEffect (.commit txnId env) .done
        (db.mvcc.committed env.order txnId env.insertedAt env.ts env.nowMs)
  | conflicted {txnId : TxnId} {env : CommitEnv} {txn : TxnMeta} {conflict : MvccConflict}
      (h : AList.lookup txnId db.mvcc.activeTxns = some txn)
      (hSsi : db.mvcc.ssiConflict env.order txnId txn = some conflict) :
      db.MvccEffect (.commit txnId env) (.failed (.mvccConflict conflict)) (db.mvcc.abortTxn txnId)
  | rolledBack {txnId : TxnId} (h : txnId ∈ db.mvcc.activeTxns) :
      db.MvccEffect (.rollback txnId) .done (db.mvcc.abortTxn txnId)
  | failed {op : Op} {e : Z1Error} : db.MvccEffect op (.failed e) db.mvcc
  | idle {op : Op} {reply : Reply} (h : op.write? = none) (hBegin : op ≠ .begin)
      (hRead : ∀ cf key txnId, op ≠ .getForTxn cf key txnId)
      (hCommit : ∀ txnId env, op ≠ .commit txnId env)
      (hRollback : ∀ txnId, op ≠ .rollback txnId) : db.MvccEffect op reply db.mvcc

/-- The engine after a begin that succeeded. -/
theorem begin_inv {db' : Engine} {txnId : TxnId} (h : db.step codec .begin = (.began txnId, db')) :
    ∃ mvcc cache, db.mvcc.beginTxn txnId = .ok mvcc ∧ cache.fullCache = none ∧
      db.txnCounter ≤ txnId ∧ db' =
        { db with
          mvcc
          txnCounter := txnId + 1
          snapshotCache := cache
          txnSnapshots := AList.insert txnId mvcc.snapshot db.txnSnapshots } := by
  rw [step, beginTxn] at h
  rcases db.beginAttempts_cases 16 with ⟨e, counter, cache, hEq, -⟩ | ⟨t, mvcc, cache, hOk, hCache, hId, hEq⟩
  · rw [hEq] at h
    cases (Prod.mk.inj h).1
  · rw [hEq] at h
    obtain ⟨hReply, hDb⟩ := Prod.mk.inj h
    obtain rfl := Reply.began.inj hReply
    exact ⟨mvcc, cache, hOk, hCache, hId, hDb.symm⟩

theorem write_effect (codec : Codec) (db : Engine) {op : Op} {e : Z1Entry} (h : op.write? = some e)
    (hStep : db.step codec op =
      (db.write codec e.key.cf e.key.key e.value e.txnId).map (Reply.ofResult fun _ => .done) id) :
    db.MvccEffect op (db.step codec op).1 (db.step codec op).2.mvcc := by
  rw [hStep]
  rcases db.write_cases codec e.key.cf e.key.key e.value e.txnId with ⟨-, hEq⟩ | ⟨hActive, hEq⟩
  · rw [hEq]
    exact .failed
  · rw [hEq]
    exact .wrote h hActive

theorem step_mvcc (codec : Codec) (db : Engine) (op : Op) :
    db.MvccEffect op (db.step codec op).1 (db.step codec op).2.mvcc := by
  cases op with
  | begin =>
      rw [step, beginTxn]
      rcases db.beginAttempts_cases 16 with ⟨e, counter, cache, hEq, -⟩ | ⟨txnId, mvcc, cache, hOk, -, hId, hEq⟩
      · rw [hEq]
        exact .failed
      · rw [hEq]
        exact .begun hOk hId
  | put cf key value txnId => exact db.write_effect codec rfl rfl
  | delete cf key txnId => exact db.write_effect codec rfl rfl
  | getForTxn cf key txnId =>
      rw [step, getForTxn]
      split
      · exact .failed
      · exact .read
  | commit txnId env =>
      rw [step]
      rcases db.commit_cases codec env txnId with
        ⟨-, hEq⟩ | ⟨e, wal, -, -, hEq⟩ | ⟨txn, conflict, wal, h, hSsi, -, hEq⟩ | ⟨txn, wal, h, hSsi, -, hEq⟩
      · rw [hEq]
        exact .failed
      · rw [hEq]
        exact .failed
      · rw [hEq]
        exact .conflicted h hSsi
      · rw [hEq]
        have hMvcc := ((db.committing codec env txnId).maybeAutoMaintain_spec codec env.writes).1.mvcc
        dsimp only [Prod.map, id]
        rw [hMvcc]
        exact .committed h hSsi
  | rollback txnId =>
      rw [step]
      rcases db.rollback_cases codec txnId with ⟨-, hEq⟩ | ⟨e, wal, -, -, hEq⟩ | ⟨wal, hActive, -, hEq⟩
      · rw [hEq]
        exact .failed
      · rw [hEq]
        exact .failed
      · rw [hEq]
        exact .rolledBack hActive
  | checkpoint writes =>
      have hMvcc := (db.checkpoint_spec codec writes).1.mvcc
      rw [step]
      dsimp only [Prod.map, id]
      rw [hMvcc]
      exact .idle rfl (by simp) (by simp) (by simp) (by simp)
  | _ => exact .idle rfl (by simp) (by simp) (by simp) (by simp)

/-- Rule for the layers: what a write of an active transaction, a flush and the
compaction of the call keep, the call keeps. -/
theorem step_store {codec : Codec} {db : Engine} {op : Op} {P : Store → Prop} (hStart : P db.store)
    (hWrite : ∀ e, op.write? = some e → e.txnId ∈ db.mvcc.activeTxns →
      P { db.store with l1 := db.store.l1.replayPut e })
    (hFlush : ∀ s writes, P s → P (s.flushL1ToL2 writes).2)
    (hCompact : ∀ s watermark s', P s → db.compaction? codec op = some (s, watermark) →
      s.Compacted watermark s' → P s') :
    P (db.step codec op).2.store := by
  have hPut : ∀ cf key value txnId, op.write? = some ⟨⟨cf, key⟩, txnId, value⟩ →
      P (db.write codec cf key value txnId).2.store := by
    intro cf key value txnId hEntry
    rcases db.write_cases codec cf key value txnId with ⟨-, hEq⟩ | ⟨hActive, hEq⟩
    · rw [hEq]
      exact hStart
    · rw [hEq]
      exact hWrite _ hEntry hActive
  cases op with
  | begin =>
      rw [step, beginTxn]
      rcases db.beginAttempts_cases 16 with ⟨e, counter, cache, hEq, -⟩ | ⟨txnId, mvcc, cache, -, -, -, hEq⟩
      · rw [hEq]
        exact hStart
      · rw [hEq]
        exact hStart
  | put cf key value txnId => exact hPut cf key (some value) txnId rfl
  | delete cf key txnId => exact hPut cf key none txnId rfl
  | getForTxn cf key txnId =>
      rw [step, getForTxn]
      split
      · exact hStart
      · exact hStart
  | commit txnId env =>
      have hCompact' : ∀ s watermark s', P s → (db.commit codec env txnId).1 = .ok () →
          (db.committing codec env txnId).maintenanceCompaction codec env.writes = some (s, watermark) →
          s.Compacted watermark s' → P s' := by
        intro s watermark s' hP hOk hPoint
        refine hCompact s watermark s' hP ?_
        simp only [compaction?, hOk, hPoint]
      rw [step]
      rcases db.commit_cases codec env txnId with
        ⟨-, hEq⟩ | ⟨e, wal, -, -, hEq⟩ | ⟨txn, conflict, wal, -, -, -, hEq⟩ | ⟨txn, wal, -, -, -, hEq⟩
      · rw [hEq]
        exact hStart
      · rw [hEq]
        exact hStart
      · rw [hEq]
        exact hStart
      · obtain ⟨-, middle, hMiddle, hAfter⟩ :=
          (db.committing codec env txnId).maybeAutoMaintain_spec codec env.writes
        have hP : P middle := by
          rcases hMiddle with rfl | rfl
          · exact hStart
          · exact hFlush _ _ hStart
        rw [hEq] at hCompact' ⊢
        dsimp only [Prod.map, id]
        rcases hAfter with hAfter | ⟨watermark, hPoint, hCompacted⟩
        · rw [hAfter]
          exact hP
        · exact hCompact' middle watermark _ hP rfl hPoint hCompacted
  | rollback txnId =>
      rw [step]
      rcases db.rollback_cases codec txnId with ⟨-, hEq⟩ | ⟨e, wal, -, -, hEq⟩ | ⟨wal, -, -, hEq⟩
      · rw [hEq]
        exact hStart
      · rw [hEq]
        exact hStart
      · rw [hEq]
        exact hStart
  | flushNow writes => exact hFlush _ _ hStart
  | flush writes =>
      change P (db.store.tryFlush writes.patch).2
      rcases db.store.tryFlush_spec writes.patch with hSame | hFlushed
      · rw [hSame]
        exact hStart
      · rw [hFlushed]
        exact hFlush _ _ hStart
  | checkpoint writes =>
      change P (db.checkpoint codec writes).2.store
      rw [(db.checkpoint_spec codec writes).2]
      exact hFlush _ _ hStart
  | compact writes watermark =>
      exact hCompact _ watermark _ hStart rfl (Store.compactCfs_spec _ _ _ _)
  | get cf key => exact hStart
  | scan cf start endKey => exact hStart

/-- Ids only go up; an id that was given out is below the counter. -/
theorem step_txnCounter (codec : Codec) (db : Engine) (op : Op) :
    db.txnCounter ≤ (db.step codec op).2.txnCounter ∧
      ∀ txnId, op = .begin → (db.step codec op).1 = .began txnId →
        txnId < (db.step codec op).2.txnCounter := by
  have hWrite : ∀ cf key value txnId,
      (db.write codec cf key value txnId).2.txnCounter = db.txnCounter := by
    intro cf key value txnId
    rcases db.write_cases codec cf key value txnId with ⟨-, hEq⟩ | ⟨-, hEq⟩
    · rw [hEq]
    · rw [hEq]
  cases op with
  | begin =>
      rw [step, beginTxn]
      rcases db.beginAttempts_cases 16 with
        ⟨e, counter, cache, hEq, -, hLe⟩ | ⟨txnId, mvcc, cache, -, -, hLe, hEq⟩
      · rw [hEq]
        exact ⟨hLe, fun txnId _ hReply => nomatch hReply⟩
      · rw [hEq]
        refine ⟨Nat.le_succ_of_le hLe, fun t _ hReply => ?_⟩
        obtain rfl := Reply.began.inj hReply
        exact Nat.lt_succ_self _
  | put cf key value txnId => exact ⟨(hWrite cf key (some value) txnId).ge, by simp⟩
  | delete cf key txnId => exact ⟨(hWrite cf key none txnId).ge, by simp⟩
  | getForTxn cf key txnId =>
      refine ⟨?_, by simp⟩
      rw [step, getForTxn]
      split <;> exact le_rfl
  | commit txnId env =>
      refine ⟨?_, by simp⟩
      rw [step]
      rcases db.commit_cases codec env txnId with
        ⟨-, hEq⟩ | ⟨e, wal, -, -, hEq⟩ | ⟨txn, conflict, wal, -, -, -, hEq⟩ | ⟨txn, wal, -, -, -, hEq⟩
      · rw [hEq]
        exact le_rfl
      · rw [hEq]
        exact le_rfl
      · rw [hEq]
        exact le_rfl
      · rw [hEq]
        exact ((db.committing codec env txnId).maybeAutoMaintain_spec codec env.writes).1.txnCounter.ge
  | rollback txnId =>
      refine ⟨?_, by simp⟩
      rw [step]
      rcases db.rollback_cases codec txnId with ⟨-, hEq⟩ | ⟨e, wal, -, -, hEq⟩ | ⟨wal, -, -, hEq⟩
      · rw [hEq]
        exact le_rfl
      · rw [hEq]
        exact le_rfl
      · rw [hEq]
        exact le_rfl
  | checkpoint writes => exact ⟨(db.checkpoint_spec codec writes).1.txnCounter.ge, by simp⟩
  | _ => exact ⟨le_rfl, by simp⟩

/-- A write by an active transaction succeeds and goes to the hot buffer. -/
theorem step_write {e : Z1Entry} (codec : Codec) (hEntry : op.write? = some e)
    (hActive : e.txnId ∈ db.mvcc.activeTxns) :
    (db.step codec op).1 = .done ∧
      (db.step codec op).2.store = { db.store with l1 := db.store.l1.replayPut e } := by
  have hWrite : ∀ cf key value txnId, txnId ∈ db.mvcc.activeTxns →
      Reply.ofResult (fun _ => .done) (db.write codec cf key value txnId).1 = .done ∧
        (db.write codec cf key value txnId).2.store =
          { db.store with l1 := db.store.l1.replayPut ⟨⟨cf, key⟩, txnId, value⟩ } := by
    intro cf key value txnId hIn
    rcases db.write_cases codec cf key value txnId with ⟨hNot, -⟩ | ⟨-, hEq⟩
    · exact absurd hIn hNot
    · rw [hEq]
      exact ⟨rfl, rfl⟩
  cases op with
  | put cf key value txnId =>
      obtain rfl := Option.some.inj hEntry
      exact hWrite cf key (some value) txnId hActive
  | delete cf key txnId =>
      obtain rfl := Option.some.inj hEntry
      exact hWrite cf key none txnId hActive
  | _ => cases hEntry

/-- An automatic compaction belongs to a successful commit, and its watermark is
not above a transaction that is active afterwards. -/
theorem compaction?_auto {s : Store} {watermark : TxnId}
    (h : db.compaction? codec op = some (s, watermark)) (hAuto : ∀ writes w, op ≠ .compact writes w) :
    ∃ txnId env, op = .commit txnId env ∧ (db.step codec op).1 = .done ∧
      watermark ≤ (db.step codec op).2.mvcc.oldestActiveBeginTs := by
  cases op with
  | compact writes w => exact absurd rfl (hAuto writes w)
  | commit txnId env =>
      refine ⟨txnId, env, rfl, ?_⟩
      have hStep : db.step codec (.commit txnId env) =
          (db.commit codec env txnId).map (Reply.ofResult fun _ => .done) id := rfl
      rw [hStep]
      dsimp only [compaction?] at h
      rcases db.commit_cases codec env txnId with
        ⟨-, hEq⟩ | ⟨e, wal, -, -, hEq⟩ | ⟨txn, conflict, wal, -, -, -, hEq⟩ | ⟨txn, wal, -, -, -, hEq⟩
      · rw [hEq] at h
        cases h
      · rw [hEq] at h
        cases h
      · rw [hEq] at h
        cases h
      · have hSame := ((db.committing codec env txnId).maybeAutoMaintain_spec codec env.writes).1
        have hCheck := ((db.committing codec env txnId).maintainCheckpoint_spec codec env.writes).1
        rw [hEq] at h ⊢
        refine ⟨rfl, ?_⟩
        dsimp only [Prod.map, id]
        rw [hSame.mvcc]
        dsimp only [maintenanceCompaction] at h
        generalize (db.committing codec env txnId).maintainCheckpoint codec env.writes = outcome at h hCheck
        obtain ⟨result, after⟩ := outcome
        cases result with
        | error e => cases h
        | ok _ =>
            dsimp only at h hCheck
            split at h
            · obtain ⟨-, rfl⟩ := Prod.mk.inj (Option.some.inj h)
              rw [← hCheck.mvcc]
              exact min_le_left _ _
            · cases h
  | _ => cases h

end Engine
end Z1Kv
