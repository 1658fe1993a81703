import Z1Kv.Txn.Account
import Z1Kv.Txn.Scan
import Z1Kv.Wal.Postcard

/-! What a commit said and what recovery makes of it. The Commit record is durable
before the SSI check, so a commit that fails there is brought back by the next
open; and a checkpoint may delete records that recovery still needs. -/
namespace Z1Kv

theorem VisibilityManager.mem_committedHistoryEntries {m : VisibilityManager} {t : TxnId} :
    t ∈ m.committedHistoryEntries.map Prod.fst ↔ t ∈ m.committedHistory := by
  simp only [committedHistoryEntries, List.map_map, List.mem_map, Function.comp_apply]
  constructor
  · rintro ⟨⟨u, entry⟩, hIn, rfl⟩
    exact FinMap.mem_iff_lookup.mpr ⟨entry, FinMap.mem_ascending.mp hIn⟩
  · intro ht
    obtain ⟨entry, hEntry⟩ := FinMap.mem_iff_lookup.mp ht
    exact ⟨(t, entry), FinMap.mem_ascending.mpr hEntry, rfl⟩

/-- Whether a checkpoint with this id replaces what recovery starts from: its file
is written, and the pointer is moved to it or points to that name already. -/
def CheckpointDir.Rebased (ckpts : CheckpointDir) (writes : Writes) (checkpointId : TxnId) : Prop :=
  writes.checkpointFile = true ∧
    (writes.latestPointer = true ∨ ckpts.latest = some checkpointId)

theorem CheckpointDir.write_ok {ckpts after : CheckpointDir} {writes : Writes}
    {state : CheckpointState} (h : ckpts.write writes state = (.ok (), after)) :
    writes.checkpointFile = true ∧ writes.latestPointer = true := by
  unfold write at h
  cases hFile : writes.checkpointFile with
  | false =>
      rw [hFile] at h
      cases h
  | true =>
      cases hPointer : writes.latestPointer with
      | false =>
          rw [hFile, hPointer] at h
          cases h
      | true => exact ⟨rfl, rfl⟩

theorem CheckpointDir.write_history (ckpts : CheckpointDir) (writes : Writes)
    (state : CheckpointState) :
    (¬ ckpts.Rebased writes state.checkpointId ∧
        (ckpts.write writes state).2.history = ckpts.history) ∨
      ckpts.Rebased writes state.checkpointId ∧
        (ckpts.write writes state).2.history = state.committedHistory.map Prod.fst := by
  unfold write Rebased
  cases writes.checkpointFile with
  | false => exact Or.inl ⟨by simp, rfl⟩
  | true =>
      cases writes.latestPointer with
      | true =>
          refine Or.inr ⟨by simp, ?_⟩
          simp [history, recoveryBaseline, loadLatest]
      | false =>
          by_cases hLatest : ckpts.latest = some state.checkpointId
          · refine Or.inr ⟨by simp [hLatest], ?_⟩
            simp [history, recoveryBaseline, loadLatest, hLatest]
          · refine Or.inl ⟨by simp [hLatest], ?_⟩
            cases hId : ckpts.latest with
            | none => simp [history, recoveryBaseline, loadLatest, hId]
            | some id =>
                have hNe : id ≠ state.checkpointId := by
                  rintro rfl
                  exact hLatest hId
                simp [history, recoveryBaseline, loadLatest, hId, AList.lookup_insert_ne hNe]

namespace Engine

/-- The engine on which a call makes a checkpoint, if it makes one. -/
def checkpointing? (codec : Codec) (db : Engine) : Op → Option (Engine × Writes)
  | .checkpoint writes => some (db, writes)
  | .commit txnId env =>
      match (db.commit codec env txnId).1 with
      | .error _ => none
      | .ok () =>
          let after := db.committing codec env txnId
          if after.config.checkpointWalSizeThreshold > 0 ∧
              after.wal.dir.sizeBytes ≥ after.config.checkpointWalSizeThreshold then
            some (after, env.writes)
          else none
  | _ => none

/-- The record that marks a checkpoint in the log. -/
def marker (db : Engine) : WalEntry := ⟨db.mvcc.committedTxn, .checkpoint db.mvcc.committedTxn⟩

/-- A checkpoint that replaces what recovery starts from. -/
def Rebases (db : Engine) (writes : Writes) : Prop :=
  (∃ groups, (db.store.flushL1ToL2 writes.patch).1 = .ok groups) ∧
    db.checkpoints.Rebased writes db.mvcc.committedTxn

/-- The position below which a checkpoint deletes segments, if it gets there. -/
def truncation? (codec : Codec) (db : Engine) (writes : Writes) : Option Nat :=
  match (db.store.flushL1ToL2 writes.patch).1 with
  | .error _ => none
  | .ok _ =>
      if writes.checkpointFile = true ∧ writes.latestPointer = true ∧ codec.Fits db.marker then
        some (db.wal.nextSeq (codec.frame db.marker).length)
      else none

section
variable {codec : Codec} {maxFileSize : Nat} {db : Engine} {log : SegmentLog}

/-- What a checkpoint does to the log and to the recovery baseline. -/
theorem checkpoint_effect (h : db.wal.Logs codec maxFileSize log) (writes : Writes) :
    ∃ log', (db.checkpoint codec writes).2.wal.Logs codec maxFileSize log' ∧
      ((db.checkpoint codec writes).2.checkpoints.history = db.checkpoints.history ∧ log' = log ∨
        db.Rebases writes ∧
          (∀ t, t ∈ (db.checkpoint codec writes).2.checkpoints.history ↔
            t ∈ db.mvcc.committedHistory) ∧
          (log' = log ∨ ∃ pos, db.truncation? codec writes = some pos ∧
            log'.entries = (log.since pos).entries ++ [db.marker])) := by
  have hHistory := db.checkpoints.write_history writes db.checkpointState
  have hSync : db.wal.flushAndSync codec = (.ok (), db.wal) := h.toInSession.flushAndSync_eq codec
  unfold checkpoint flushNow Rebases truncation?
  dsimp only
  generalize db.store.flushL1ToL2 writes.patch = flushed
  obtain ⟨result, store⟩ := flushed
  cases result with
  | error e => exact ⟨log, h, Or.inl ⟨rfl, rfl⟩⟩
  | ok groups =>
      dsimp only
      rw [hSync]
      dsimp only [checkpointState, writeCheckpoint] at hHistory ⊢
      generalize hWrite : db.checkpoints.write writes _ = written at hHistory ⊢
      obtain ⟨result, checkpoints⟩ := written
      dsimp only at hHistory
      cases result with
      | error e =>
          refine ⟨log, h, ?_⟩
          rcases hHistory with ⟨-, hSame⟩ | ⟨hRebased, hNew⟩
          · exact Or.inl ⟨hSame, rfl⟩
          · refine Or.inr ⟨⟨⟨groups, rfl⟩, hRebased⟩, fun t => ?_, Or.inl rfl⟩
            dsimp only
            rw [hNew, VisibilityManager.mem_committedHistoryEntries]
      | ok _ =>
          obtain ⟨hFile, hPointer⟩ := CheckpointDir.write_ok hWrite
          have hNew : ∀ t, t ∈ checkpoints.history ↔ t ∈ db.mvcc.committedHistory := by
            intro t
            rcases hHistory with ⟨hNot, -⟩ | ⟨-, hNew⟩
            · exact absurd ⟨hFile, Or.inl hPointer⟩ hNot
            · rw [hNew, VisibilityManager.mem_committedHistoryEntries]
          have hRebased : db.checkpoints.Rebased writes db.mvcc.committedTxn :=
            ⟨hFile, Or.inl hPointer⟩
          dsimp only [appendMarker]
          rw [h.toInSession.appendDurable_eq]
          rcases @WalWriter.InSession.append_cases codec maxFileSize db.wal h.toInSession
            db.mvcc.committedTxn (.checkpoint db.mvcc.committedTxn) with ⟨hFits, hEq⟩ | ⟨-, e, hEq⟩
          · obtain ⟨wal, log', hTruncate, hLogs, hEntries⟩ := h.append_truncate hFits
            rw [hEq]
            dsimp only [truncateWal]
            rw [hTruncate]
            refine ⟨log', hLogs, Or.inr ⟨⟨⟨groups, rfl⟩, hRebased⟩, hNew, Or.inr ⟨_, ?_, hEntries⟩⟩⟩
            exact if_pos ⟨hFile, hPointer, hFits⟩
          · rw [hEq]
            exact ⟨log, h, Or.inr ⟨⟨⟨groups, rfl⟩, hRebased⟩, hNew, Or.inl rfl⟩⟩

/-- Calls that touch neither the log nor the checkpoints. -/
theorem step_quiet {op : Op} (hEntry : op.write? = none) (hCommit : ∀ t env, op ≠ .commit t env)
    (hRollback : ∀ t, op ≠ .rollback t) (hCheckpoint : ∀ writes, op ≠ .checkpoint writes) :
    (db.step codec op).2.wal = db.wal ∧ (db.step codec op).2.checkpoints = db.checkpoints := by
  cases op with
  | begin =>
      rw [step, beginTxn]
      rcases db.beginAttempts_cases 16 with ⟨e, counter, cache, hEq, -⟩ | ⟨t, mvcc, cache, -, -, -, hEq⟩
      · rw [hEq]
        exact ⟨rfl, rfl⟩
      · rw [hEq]
        exact ⟨rfl, rfl⟩
  | put => cases hEntry
  | delete => cases hEntry
  | getForTxn cf key txnId =>
      rw [step, getForTxn]
      split <;> exact ⟨rfl, rfl⟩
  | commit t env => exact absurd rfl (hCommit t env)
  | rollback t => exact absurd rfl (hRollback t)
  | checkpoint writes => exact absurd rfl (hCheckpoint writes)
  | flushNow writes =>
      unfold step flushNow
      generalize db.store.flushL1ToL2 writes.patch = flushed
      exact ⟨rfl, rfl⟩
  | _ => exact ⟨rfl, rfl⟩

theorem maybeAutoMaintain_disk (db : Engine) (writes : Writes) :
    (db.maybeAutoMaintain codec writes).2.wal = (db.maintainCheckpoint codec writes).2.wal ∧
      (db.maybeAutoMaintain codec writes).2.checkpoints =
        (db.maintainCheckpoint codec writes).2.checkpoints := by
  unfold maybeAutoMaintain
  generalize db.maintainCheckpoint codec writes = checkpointed
  obtain ⟨result, after⟩ := checkpointed
  cases result with
  | error e => exact ⟨rfl, rfl⟩
  | ok _ =>
      dsimp only
      unfold maintainCompaction
      split <;> exact ⟨rfl, rfl⟩

end

/-- The log has the Commit record of a transaction and all its Put records. -/
def LogsWhole (codec : Codec) (db : Engine) (j : List News) (t : TxnId) : Prop :=
  ∃ entries, replayAll codec db.wal.dir = .ok entries ∧ HasCommit entries t ∧
    livePuts t entries = (writesOf j t).map Z1Entry.logged

/-- A checkpoint that takes nothing from recovery. What the previous checkpoint
knew as committed is still in the history, or whole in the log; a segment is
deleted only if the writers whose Put or Commit records it has ended without a
commit or are in the history. -/
structure SparesRecords (codec : Codec) (j : List News) (db : Engine) (writes : Writes) : Prop where
  evictions : db.Rebases writes → ∀ t ∈ db.checkpoints.history, writesOf j t ≠ [] →
    t ∈ db.mvcc.committedHistory ∨ db.LogsWhole codec j t
  deletions : ∀ pos, db.truncation? codec writes = some pos →
    ∀ op, db.wal.dir.Below codec pos op → op.record ≠ .rollback →
      (∀ id, op.record ≠ .checkpoint id) → writesOf j op.txnId ≠ [] →
        op.txnId ∉ db.mvcc.activeTxns ∧
          (.committed op.txnId ∈ j → op.txnId ∈ db.mvcc.committedHistory)

end Engine

/-- A call after which the outcome of every commit is what recovery makes of it.
Put records fit; a commit of a writer overlaps no active transaction, so the
check behind its durable record passes; a checkpoint spares the records in need. -/
structure Accountable (codec : Codec) (past : List (Op × Reply)) (db : Engine) (op : Op) : Prop where
  fits : ∀ e, op.write? = some e → codec.Fits e.logged
  apart : ∀ t env txn, op = .commit t env → AList.lookup t db.mvcc.activeTxns = some txn →
    txn.writtenKeys ≠ [] → ∀ u other, u ≠ t → AList.lookup u db.mvcc.activeTxns = some other →
      ¬ VisibilityManager.Overlaps txn other
  checkpoints : ∀ after writes, db.checkpointing? codec op = some (after, writes) →
    after.SparesRecords codec (journal (past ++ [(op, .done)])) writes

/-- The books of a session on an empty directory. -/
structure Kept (codec : Codec) (maxFileSize : Nat) (base : TxnId) (j : List News) (db : Engine) :
    Prop where
  ledger : Ledger base j db.mvcc db.txnCounter
  baseline : ∀ t ∈ db.checkpoints.history, t ≤ base ∨ .committed t ∈ j
  books : ∃ log, db.wal.Logs codec maxFileSize log ∧
    Booked j db.mvcc (fun _ => False) (· ∈ db.checkpoints.history) log.entries

/-- A history entry is old or belongs to a commit, so no active transaction has one. -/
theorem Ledger.not_active_of_baseline {base txnCounter : TxnId} {j : List News}
    {m : VisibilityManager} (h : Ledger base j m txnCounter) {t : TxnId}
    (hBase : t ≤ base ∨ .committed t ∈ j) : t ∉ m.activeTxns := by
  intro hActive
  rcases hBase with hLe | hCommitted
  · exact absurd (h.began t (h.active_mem hActive)).1 (Nat.not_lt.mpr hLe)
  · exact (h.committed t hCommitted).1 hActive

/-- A transaction that the check refuses although no writer can be refused has not
written. -/
theorem Ledger.writesOf_refused {base txnCounter t : TxnId} {j : List News} {m : VisibilityManager}
    (h : Ledger base j m txnCounter) {txn : TxnMeta} {order : HashOrder} {conflict : MvccConflict}
    (hLookup : AList.lookup t m.activeTxns = some txn)
    (hSsi : m.ssiConflict order t txn = some conflict)
    (hApart : txn.writtenKeys ≠ [] → ∀ u other, u ≠ t →
      AList.lookup u m.activeTxns = some other → ¬ VisibilityManager.Overlaps txn other) :
    writesOf j t = [] := by
  by_contra hNe
  obtain ⟨e, he, hTxn⟩ := writesOf_ne_nil.mp hNe
  have hKey := h.recorded e txn he (by rw [hTxn]; exact hLookup)
  have hNone : m.ssiConflict order t txn = none :=
    VisibilityManager.ssiConflict_eq_none.mpr (hApart (List.ne_nil_of_mem hKey))
  rw [hNone] at hSsi
  cases hSsi

namespace Kept
variable {codec : Codec} {maxFileSize : Nat} {base : TxnId} {j : List News} {db : Engine}

/-- A checkpoint that spares the records in need keeps the books. -/
theorem checkpoint (h : Kept codec maxFileSize base j db) {writes : Writes}
    (hSpares : db.SparesRecords codec j writes) :
    Kept codec maxFileSize base j (db.checkpoint codec writes).2 := by
  obtain ⟨log, hLogs, hBooked⟩ := h.books
  obtain ⟨log', hLogs', hEffect⟩ := Engine.checkpoint_effect hLogs writes
  obtain ⟨hSame, -⟩ := db.checkpoint_spec codec writes
  generalize (db.checkpoint codec writes).2 = after at hLogs' hEffect hSame ⊢
  rcases hEffect with ⟨hHistory, rfl⟩ | ⟨hRebases, hHistory, hLog⟩
  · refine ⟨?_, ?_, log', hLogs', ?_⟩
    · rw [hSame.mvcc, hSame.txnCounter]
      exact h.ledger
    · rw [hHistory]
      exact h.baseline
    · rw [hSame.mvcc, hHistory]
      exact hBooked
  · have hBaseline : ∀ t ∈ after.checkpoints.history, t ≤ base ∨ .committed t ∈ j :=
      fun t ht => h.ledger.history t ((hHistory t).mp ht)
    have hRebased : Booked j db.mvcc (fun _ => False) (· ∈ after.checkpoints.history) log.entries := by
      refine hBooked.rebase ?_ ?_
      · exact fun t hActive hIn => h.ledger.not_active_of_baseline (hBaseline t hIn) hActive
      · intro t hCommitted hWrites hSafe
        rcases hSpares.evictions hRebases t hSafe hWrites with hIn | ⟨entries, hReplay, hWhole⟩
        · exact Or.inl ((hHistory t).mpr hIn)
        · rw [hLogs.replay] at hReplay
          obtain rfl := Except.ok.inj hReplay
          exact Or.inr hWhole
    refine ⟨?_, hBaseline, log', hLogs', ?_⟩
    · rw [hSame.mvcc, hSame.txnCounter]
      exact h.ledger
    · rw [hSame.mvcc]
      rcases hLog with rfl | ⟨pos, hPos, hEntries⟩
      · exact hRebased
      · rw [hEntries]
        have hSplit : log.entries = (log.before pos).entries ++ (log.since pos).entries := by
          rw [← SegmentLog.entries_append, SegmentLog.before_append_since hLogs.wellFormed]
        refine (hRebased.truncate hSplit ?_).marker _ _
        · intro op hOp hRollback hMarker hWrites
          obtain ⟨hEnded, hIn⟩ := hSpares.deletions pos hPos op (hLogs.recordBelow hOp) hRollback
            hMarker hWrites
          exact ⟨hEnded, fun hCommitted => (hHistory _).mpr (hIn hCommitted)⟩

theorem maintain (h : Kept codec maxFileSize base j db) {writes : Writes}
    (hSpares : db.config.checkpointWalSizeThreshold > 0 ∧
      db.wal.dir.sizeBytes ≥ db.config.checkpointWalSizeThreshold →
        db.SparesRecords codec j writes) :
    Kept codec maxFileSize base j (db.maybeAutoMaintain codec writes).2 := by
  have hAfter : Kept codec maxFileSize base j (db.maintainCheckpoint codec writes).2 := by
    unfold Engine.maintainCheckpoint
    split
    · next hDue => exact h.checkpoint (hSpares hDue)
    · exact h
  obtain ⟨hWal, hCheckpoints⟩ := @Engine.maybeAutoMaintain_disk codec db writes
  have hSame := (db.maybeAutoMaintain_spec codec writes).1
  have hSame' := (db.maintainCheckpoint_spec codec writes).1
  have hMvcc := hSame.mvcc.trans hSame'.mvcc.symm
  refine ⟨?_, ?_, ?_⟩
  · rw [hMvcc, hSame.txnCounter.trans hSame'.txnCounter.symm]
    exact hAfter.ledger
  · rw [hCheckpoints]
    exact hAfter.baseline
  · rw [hWal, hMvcc, hCheckpoints]
    exact hAfter.books

/-- A write by an active transaction. -/
theorem write (h : Kept codec maxFileSize base j db) {e : Z1Entry}
    (hActive : e.txnId ∈ db.mvcc.activeTxns) (hFits : codec.Fits e.logged) {db' : Engine}
    (hLedger : Ledger base (j ++ [.wrote e]) db'.mvcc db'.txnCounter)
    (hMvcc : db'.mvcc = db.mvcc.recordWrite e.txnId (conflictKey e.key.cf e.key.key))
    (hWal : db'.wal = (db.wal.append codec e.txnId (.put e.key.cf e.key.key e.value)).2)
    (hCheckpoints : db'.checkpoints = db.checkpoints) :
    Kept codec maxFileSize base (j ++ [.wrote e]) db' := by
  obtain ⟨log, hLogs, hBooked⟩ := h.books
  refine ⟨hLedger, ?_, ?_⟩
  · rw [hCheckpoints]
    exact fun t ht => (h.baseline t ht).imp_right (List.mem_append_left _)
  · rcases hLogs.append e.txnId (.put e.key.cf e.key.key e.value) with
      ⟨wal, log', hEq, hLogs', hGrows⟩ | ⟨hNot, -⟩
    · refine ⟨log', by rw [hWal, hEq]; exact hLogs', ?_⟩
      rw [hGrows.entries, hCheckpoints]
      refine (hBooked.write h.ledger hActive id).idle (fun t => ?_) fun t => Iff.rfl
      rw [hMvcc]
      exact VisibilityManager.mem_modifyActive
    · exact absurd hFits hNot

/-- A call that leaves log and checkpoints alone. -/
theorem quiet (h : Kept codec maxFileSize base j db) {n : News} {db' : Engine}
    (hLedger : Ledger base (j ++ [n]) db'.mvcc db'.txnCounter)
    (hStep : JournalStep db.mvcc db.txnCounter n db'.mvcc) (hWrote : ∀ e, n ≠ .wrote e)
    (hCommitted : ∀ t, n ≠ .committed t)
    (hActive : n = .other → ∀ t, t ∈ db'.mvcc.activeTxns ↔ t ∈ db.mvcc.activeTxns)
    (hWal : db'.wal = db.wal) (hCheckpoints : db'.checkpoints = db.checkpoints) :
    Kept codec maxFileSize base (j ++ [n]) db' := by
  obtain ⟨log, hLogs, hBooked⟩ := h.books
  refine ⟨hLedger, ?_, log, by rw [hWal]; exact hLogs, ?_⟩
  · rw [hCheckpoints]
    exact fun t ht => (h.baseline t ht).imp_right (List.mem_append_left _)
  · rw [hCheckpoints]
    generalize db'.mvcc = mvcc at hStep hActive
    cases hStep with
    | @began txnId _ hBegin hId =>
        refine hBooked.begin h.ledger hBegin hId fun hIn => ?_
        rcases h.baseline txnId hIn with hLe | hOld
        · exact absurd (hLe.trans h.ledger.aboveBase)
            (Nat.not_le.mpr (VisibilityManager.beginTxn_eq_ok hBegin).2.1)
        · exact absurd (h.ledger.began _ (h.ledger.committed _ hOld).2.began).2 (Nat.not_lt.mpr hId)
    | wrote => exact absurd rfl (hWrote _)
    | committed => exact absurd rfl (hCommitted _)
    | other => exact hBooked.other.idle (hActive rfl) fun t => Iff.rfl

section
variable {t : TxnId} {env : CommitEnv} {wal : WalWriter} {txn : TxnMeta}
  (hAppend : db.wal.appendDurable codec t (.commit t env.insertedAt) = (.ok (), wal))
  (hLookup : AList.lookup t db.mvcc.activeTxns = some txn)
include hAppend hLookup

/-- The books after the Commit record, with the commit still to come. -/
theorem logCommit (h : Kept codec maxFileSize base j db) :
    ∃ log, wal.Logs codec maxFileSize log ∧
      Booked j db.mvcc (fun u => False ∨ u = t) (· ∈ db.checkpoints.history) log.entries := by
  obtain ⟨log, hLogs, hBooked⟩ := h.books
  rw [hLogs.toInSession.appendDurable_eq] at hAppend
  rcases hLogs.append t (.commit t env.insertedAt) with ⟨w', log', hEq, hLogs', hGrows⟩ | ⟨-, e, hEq⟩
  · rw [hEq] at hAppend
    obtain ⟨-, rfl⟩ := Prod.mk.inj hAppend
    refine ⟨log', hLogs', ?_⟩
    rw [hGrows.entries]
    exact hBooked.logCommit h.ledger _ _ (FinMap.mem_iff_lookup.mpr ⟨txn, hLookup⟩)
  · rw [hEq] at hAppend
    cases (Prod.mk.inj hAppend).1

theorem commit (h : Kept codec maxFileSize base j db)
    (hLedger : Ledger base (j ++ [.committed t])
      (db.mvcc.committed env.order t env.insertedAt env.ts env.nowMs) db.txnCounter) :
    Kept codec maxFileSize base (j ++ [.committed t]) (db.committing codec env t) := by
  obtain ⟨log, hLogs, hBooked⟩ := h.logCommit hAppend hLookup
  refine ⟨hLedger, fun u hu => (h.baseline u hu).imp_right (List.mem_append_left _), log, ?_, ?_⟩
  · dsimp only [Engine.committing]
    rw [hAppend]
    exact hLogs
  · refine (hBooked.commit (Or.inr rfl) (VisibilityManager.committed_activeTxns _ _ _ _ _ _)).idle
      (fun u => Iff.rfl) fun u => ?_
    simp

/-- A commit that fails the check ends a transaction without writes. -/
theorem conflict (h : Kept codec maxFileSize base j db) {conflict : MvccConflict}
    (hSsi : db.mvcc.ssiConflict env.order t txn = some conflict)
    (hApart : txn.writtenKeys ≠ [] → ∀ u other, u ≠ t →
      AList.lookup u db.mvcc.activeTxns = some other → ¬ VisibilityManager.Overlaps txn other)
    {db' : Engine} (hLedger : Ledger base (j ++ [.other]) db'.mvcc db'.txnCounter)
    (hMvcc : db'.mvcc = db.mvcc.abortTxn t) (hWal : db'.wal = wal)
    (hCheckpoints : db'.checkpoints = db.checkpoints) :
    Kept codec maxFileSize base (j ++ [.other]) db' := by
  have hWrites := h.ledger.writesOf_refused hLookup hSsi hApart
  obtain ⟨log, hLogs, hBooked⟩ := h.logCommit hAppend hLookup
  refine ⟨hLedger, ?_, log, by rw [hWal]; exact hLogs, ?_⟩
  · rw [hCheckpoints]
    exact fun u hu => (h.baseline u hu).imp_right (List.mem_append_left _)
  · rw [hMvcc, hCheckpoints]
    refine (hBooked.abort h.ledger (FinMap.mem_iff_lookup.mpr ⟨txn, hLookup⟩) hWrites
      (VisibilityManager.abortTxn_activeTxns _ _)).other.idle (fun u => Iff.rfl) fun u => ?_
    simp

end

theorem rollback (h : Kept codec maxFileSize base j db) {t : TxnId} {wal : WalWriter}
    (hActive : t ∈ db.mvcc.activeTxns) (hAppend : db.wal.append codec t .rollback = (.ok (), wal))
    {db' : Engine} (hLedger : Ledger base (j ++ [.other]) db'.mvcc db'.txnCounter)
    (hMvcc : db'.mvcc = db.mvcc.abortTxn t) (hWal : db'.wal = wal)
    (hCheckpoints : db'.checkpoints = db.checkpoints) :
    Kept codec maxFileSize base (j ++ [.other]) db' := by
  obtain ⟨log, hLogs, hBooked⟩ := h.books
  rcases hLogs.append t .rollback with ⟨w', log', hEq, hLogs', hGrows⟩ | ⟨-, e, hEq⟩
  · rw [hEq] at hAppend
    obtain ⟨-, rfl⟩ := Prod.mk.inj hAppend
    refine ⟨hLedger, ?_, log', by rw [hWal]; exact hLogs', ?_⟩
    · rw [hCheckpoints]
      exact fun u hu => (h.baseline u hu).imp_right (List.mem_append_left _)
    · rw [hGrows.entries, hMvcc, hCheckpoints]
      refine (hBooked.rollback h.ledger hActive
        (VisibilityManager.abortTxn_activeTxns _ _)).other.idle (fun u => Iff.rfl) fun u => ?_
      simp
  · rw [hEq] at hAppend
    cases (Prod.mk.inj hAppend).1

/-- A failed append changes nothing. -/
theorem append_error (h : Kept codec maxFileSize base j db) {t : TxnId} {record : WalRecord}
    {e : Z1Error} {wal : WalWriter} (hAppend : db.wal.append codec t record = (.error e, wal)) :
    wal = db.wal := by
  obtain ⟨log, hLogs, -⟩ := h.books
  exact hLogs.toInSession.append_error hAppend

end Kept

section
variable {codec : Codec} {maxFileSize : Nat} {base : TxnId} {past : List (Op × Reply)}
  {db : Engine} {op : Op} (h : Kept codec maxFileSize base (journal past) db)
include h

/-- A call that leaves transactions, log and checkpoints as they are. -/
theorem Kept.step_failed {reply : Reply} {db' : Engine} (hStep : db.step codec op = (reply, db'))
    (hNews : news (op, reply) = .other) (hMvcc : db'.mvcc = db.mvcc) (hWal : db'.wal = db.wal)
    (hCheckpoints : db'.checkpoints = db.checkpoints) :
    Kept codec maxFileSize base (journal past ++ [news (op, (db.step codec op).1)])
      (db.step codec op).2 := by
  have hLedger := h.ledger.step_call codec op
  have hJournal := (db.step_mvcc codec op).journalStep
  rw [hStep] at hLedger hJournal ⊢
  refine h.quiet hLedger hJournal (by simp [hNews]) (by simp [hNews]) (fun _ t => ?_) hWal hCheckpoints
  rw [hMvcc]

theorem Kept.step_write {e : Z1Entry} (hEntry : op.write? = some e) (hFits : codec.Fits e.logged)
    (hStep : db.step codec op = (db.write codec e.key.cf e.key.key e.value e.txnId).map
      (Reply.ofResult fun _ => .done) id) :
    Kept codec maxFileSize base (journal past ++ [news (op, (db.step codec op).1)])
      (db.step codec op).2 := by
  have hLedger := h.ledger.step_call codec op
  rcases db.write_cases codec e.key.cf e.key.key e.value e.txnId with ⟨-, hEq⟩ | ⟨hActive, hEq⟩
  · rw [hEq] at hStep
    refine h.step_failed hStep ?_ rfl rfl rfl
    cases op <;> rfl
  · have hNews := news_step codec hEntry hActive
    rw [hNews] at hLedger ⊢
    rw [hEq] at hStep
    rw [hStep] at hLedger ⊢
    exact h.write hActive hFits hLedger rfl rfl rfl

theorem Kept.step_commit {t : TxnId} {env : CommitEnv}
    (hAccountable : Accountable codec past db (.commit t env)) :
    Kept codec maxFileSize base (journal past ++ [news (.commit t env, (db.step codec (.commit t env)).1)])
      (db.step codec (.commit t env)).2 := by
  have hLedger := h.ledger.step_call codec (.commit t env)
  have hStep : db.step codec (.commit t env) =
      (db.commit codec env t).map (Reply.ofResult fun _ => .done) id := rfl
  rcases db.commit_cases codec env t with ⟨-, hEq⟩ | ⟨e, wal, -, hAppend, hEq⟩ |
    ⟨txn, conflict, wal, hLookup, hSsi, hAppend, hEq⟩ | ⟨txn, wal, hLookup, hSsi, hAppend, hEq⟩
  · rw [hEq] at hStep
    exact h.step_failed hStep rfl rfl rfl rfl
  · rw [hEq] at hStep
    refine h.step_failed hStep rfl rfl ?_ rfl
    obtain ⟨log, hLogs, -⟩ := h.books
    rw [hLogs.toInSession.appendDurable_eq] at hAppend
    exact h.append_error hAppend
  · rw [hEq] at hStep
    rw [hStep] at hLedger ⊢
    exact h.conflict hAppend hLookup hSsi (hAccountable.apart t env txn rfl hLookup) hLedger rfl rfl rfl
  · have hSame := ((db.committing codec env t).maybeAutoMaintain_spec codec env.writes).1
    rw [hEq] at hStep
    rw [hStep] at hLedger ⊢
    dsimp only [Prod.map, id] at hLedger ⊢
    rw [hSame.mvcc, hSame.txnCounter] at hLedger
    refine (h.commit hAppend hLookup hLedger).maintain fun hDue => ?_
    have hSpares := hAccountable.checkpoints (db.committing codec env t) env.writes
    rw [journal_concat] at hSpares
    refine hSpares ?_
    dsimp only [Engine.checkpointing?]
    rw [hEq]
    exact if_pos hDue

theorem Kept.step_rollback {t : TxnId} :
    Kept codec maxFileSize base (journal past ++ [news (.rollback t, (db.step codec (.rollback t)).1)])
      (db.step codec (.rollback t)).2 := by
  have hLedger := h.ledger.step_call codec (.rollback t)
  have hStep : db.step codec (.rollback t) =
      (db.rollback codec t).map (Reply.ofResult fun _ => .done) id := rfl
  rcases db.rollback_cases codec t with ⟨-, hEq⟩ | ⟨e, wal, -, hAppend, hEq⟩ |
    ⟨wal, hActive, hAppend, hEq⟩
  · rw [hEq] at hStep
    exact h.step_failed hStep rfl rfl rfl rfl
  · rw [hEq] at hStep
    exact h.step_failed hStep rfl rfl (h.append_error hAppend) rfl
  · rw [hEq] at hStep
    rw [hStep] at hLedger ⊢
    exact h.rollback hActive hAppend hLedger rfl rfl rfl

theorem Kept.step_checkpoint {writes : Writes}
    (hAccountable : Accountable codec past db (.checkpoint writes)) :
    Kept codec maxFileSize base
      (journal past ++ [news (.checkpoint writes, (db.step codec (.checkpoint writes)).1)])
      (db.step codec (.checkpoint writes)).2 := by
  have hSpares := hAccountable.checkpoints db writes rfl
  have hLedger := h.ledger.step_call codec (.checkpoint writes)
  have hSame := (db.checkpoint_spec codec writes).1
  have hStep : (db.step codec (.checkpoint writes)).2 = (db.checkpoint codec writes).2 := by
    rw [Engine.step, Prod.map_snd, id]
  have hNews : ∀ reply, news (.checkpoint writes, reply) = .other := fun reply => rfl
  rw [journal_concat, hNews] at hSpares
  rw [hNews, hStep, hSame.mvcc, hSame.txnCounter] at hLedger
  rw [hNews, hStep]
  refine Kept.checkpoint ?_ hSpares
  obtain ⟨log, hLogs, hBooked⟩ := h.books
  exact ⟨hLedger, fun t ht => (h.baseline t ht).imp_right (List.mem_append_left _), log, hLogs,
    hBooked.other⟩

theorem Kept.step_quiet (hEntry : op.write? = none) (hCommit : ∀ t env, op ≠ .commit t env)
    (hRollback : ∀ t, op ≠ .rollback t) (hCheckpoint : ∀ writes, op ≠ .checkpoint writes) :
    Kept codec maxFileSize base (journal past ++ [news (op, (db.step codec op).1)])
      (db.step codec op).2 := by
  have hEffect := db.step_mvcc codec op
  obtain ⟨hWal, hCheckpoints⟩ := @Engine.step_quiet codec db op hEntry hCommit hRollback hCheckpoint
  refine h.quiet (h.ledger.step_call codec op) hEffect.journalStep ?_ ?_ ?_ hWal hCheckpoints
  · intro e hNews
    rw [entry_of_news hNews] at hEntry
    cases hEntry
  · intro t hNews
    obtain ⟨env, hOp, -⟩ := hEffect.commit_inv hNews
    exact hCommit t env hOp
  · intro hNews t
    generalize (db.step codec op).1 = reply at hEffect hNews
    generalize (db.step codec op).2.mvcc = mvcc at hEffect
    cases hEffect with
    | begun => cases hNews
    | wrote hSome =>
        rw [hSome] at hEntry
        cases hEntry
    | read => exact VisibilityManager.mem_modifyActive
    | @committed txnId env => exact absurd rfl (hCommit txnId env)
    | @conflicted txnId env => exact absurd rfl (hCommit txnId env)
    | @rolledBack txnId => exact absurd rfl (hRollback txnId)
    | failed => exact Iff.rfl
    | idle => exact Iff.rfl

theorem Kept.step (hAccountable : Accountable codec past db op) :
    Kept codec maxFileSize base (journal (past ++ [(op, (db.step codec op).1)]))
      (db.step codec op).2 := by
  rw [journal_concat]
  cases op with
  | put cf key value txnId => exact h.step_write rfl (hAccountable.fits _ rfl) rfl
  | delete cf key txnId => exact h.step_write rfl (hAccountable.fits _ rfl) rfl
  | commit t env => exact h.step_commit hAccountable
  | rollback t => exact h.step_rollback
  | checkpoint writes => exact h.step_checkpoint hAccountable
  | _ => exact h.step_quiet rfl (by simp) (by simp) (by simp)

end

/-- A clean log that a session left behind is what the next open replays. -/
theorem WalWriter.Logs.reopened {codec : Codec} {maxFileSize : Nat} {w : WalWriter} {log : SegmentLog}
    (h : w.Logs codec maxFileSize log) (config : WalConfig) :
    replayAll codec (WalWriter.openLatest (w.close codec) config).dir = .ok log.entries := by
  obtain ⟨front, entries, hLog, -⟩ := h.last
  have hWellFormed := h.wellFormed
  rw [h.close]
  rw [hLog] at hWellFormed ⊢
  have hDir := (WalWriter.openLatest_holds hWellFormed config).1.dir
  rw [hDir]
  refine replayAll_clean hWellFormed fun s hs => h.whole s ?_
  rw [hLog]
  exact List.dropLast_subset _ hs

/-- What the next open finds in the files of the disk layers. -/
theorem Engine.stored_of_close (db : Engine) {codec : Codec} {e : Z1Entry}
    (he : e ∈ (db.close codec).l2.flatMap Patch.versions ∨
      e ∈ (db.close codec).l3.flatMap Patch.versions) : e ∈ db.store.stored := by
  simp only [close, DiskLayer.files, List.flatMap_append, List.mem_append] at he
  rw [Store.mem_stored, Store.mem_held, Store.mem_settled, Store.mem_leftover]
  rcases he with (he | he) | (he | he)
  · exact Or.inl (Or.inl (Or.inr (Or.inr (Or.inr (Or.inl he)))))
  · exact Or.inr (Or.inl he)
  · exact Or.inl (Or.inl (Or.inr (Or.inr (Or.inr (Or.inr he)))))
  · exact Or.inr (Or.inr he)

theorem Engine.Recovered.held {dir : DataDir} {entries : List WalEntry} {db : Engine}
    (h : db.Recovered dir entries) {e : Z1Entry} (he : e ∈ db.store.held) :
    (HasCommit entries e.txnId ∧ e.logged ∈ entries) ∨ e ∈ dir.l2.flatMap Patch.versions ∨
      e ∈ dir.l3.flatMap Patch.versions := by
  rcases Store.mem_held_iff.mp he with he | he
  · obtain ⟨hCommit, op, hOp, hVersion⟩ := h.hot e he
    obtain rfl := version?_eq_some.mp hVersion
    exact Or.inl ⟨hCommit, (mem_livePuts hOp).1⟩
  · rw [← h.l2, ← h.l3]
    exact Or.inr ((h.beyond e).mp he)

/-- An open on an empty directory. -/
theorem Kept.of_open {codec : Codec} {maxFileSize : Nat} {env : OpenEnv} {config : Z1Config}
    {db : Engine} (h : Engine.openWithConfig codec maxFileSize env config {} = .ok db) :
    Kept codec maxFileSize db.mvcc.committedTxn (journal []) db ∧
      Written (fun _ => False) (journal []) db := by
  obtain ⟨hAligned, hQueue, hConfig⟩ :=
    WalWriter.openLatest_nil codec (sessionConfig maxFileSize)
  have hLogs : (WalWriter.openLatest [] (sessionConfig maxFileSize)).Logs codec maxFileSize
      [{ seq := 0, entries := [] }] :=
    ⟨hAligned.toAtEnd, ⟨hConfig, hQueue⟩, by simp⟩
  have hReplay : replayAll codec (WalWriter.openLatest ({} : DataDir).wal
      (sessionConfig maxFileSize)).dir = .ok [] := hLogs.replay
  obtain ⟨opened, hOpened, hRecovered⟩ := @open_recovers codec maxFileSize env config {} [] hReplay (by simp)
  obtain rfl := Except.ok.inj (h.symm.trans hOpened)
  obtain ⟨recovery, l1, -, hState⟩ := Engine.openWithConfig_cases h
  have hWal : db.wal = WalWriter.openLatest [] (sessionConfig maxFileSize) := by rw [hState]
  have hNone : ∀ t, t ∉ db.checkpoints.history := by
    intro t ht
    rw [hState] at ht
    simp [CheckpointDir.history, CheckpointDir.recoveryBaseline, CheckpointDir.loadLatest] at ht
  refine ⟨⟨.of_open h, fun t ht => absurd ht (hNone t), _, by rw [hWal]; exact hLogs, by simp, ?_⟩, ?_⟩
  · intro t
    refine (Balanced.of_unknown (by simp [journal]) (by simp)).congr ?_ Iff.rfl
    rw [Engine.active_of_open h]
    simp
  · intro e he
    rcases hRecovered.held (Engine.stored_of_open h he) with ⟨-, hIn⟩ | hIn | hIn
    · simp at hIn
    · simp at hIn
    · simp at hIn

/-- What the journal says of the commits of its writers is what this engine knows,
and reads return writes of committed transactions only. -/
structure Engine.Agrees (j : List News) (db : Engine) : Prop where
  history : ∀ t, writesOf j t ≠ [] → (t ∈ db.mvcc.committedHistory ↔ .committed t ∈ j)
  gets : ∀ cf key v, (db.get cf key).1 = some v → ∃ e, .wrote e ∈ j ∧ .committed e.txnId ∈ j ∧
    e.key = ⟨cf, key⟩ ∧ e.value = some v
  scans : ∀ cf start endKey k v, (k, v) ∈ (db.scan cf start endKey).1 →
    ∃ e, .wrote e ∈ j ∧ .committed e.txnId ∈ j ∧ e.key = ⟨cf, k⟩ ∧ e.value = some v

theorem Kept.reopen {codec : Codec} {maxFileSize : Nat} {base : TxnId} {j : List News} {db : Engine}
    (h : Kept codec maxFileSize base j db) (hWritten : Written (fun _ => False) j db)
    (env : OpenEnv) (config : Z1Config) :
    ∃ db', Engine.openWithConfig codec maxFileSize env config (db.close codec) = .ok db' ∧
      db'.Agrees j := by
  obtain ⟨log, hLogs, hBooked⟩ := h.books
  obtain ⟨db', hOpen, hRecovered⟩ := @open_recovers codec maxFileSize env config (db.close codec)
    log.entries (hLogs.reopened _) hBooked.noBegin
  have hHistory : ∀ t, writesOf j t ≠ [] → (t ∈ db'.mvcc.committedHistory ↔ .committed t ∈ j) := by
    intro t hWrites
    have hBalanced := hBooked.balanced t
    have hBegan : .began t ∈ j := by
      obtain ⟨e, he, rfl⟩ := writesOf_ne_nil.mp hWrites
      exact h.ledger.writers e he
    rw [hRecovered.history]
    constructor
    · rintro (hIn | hReplayed)
      · exact (h.baseline t hIn).resolve_left (Nat.not_le.mpr (h.ledger.began t hBegan).1)
      · exact (hBalanced.replayed hReplayed).resolve_right id
    · intro hCommitted
      rcases (hBalanced.kept hCommitted).resolve_left hWrites with hSafe | ⟨hCommit, hPuts⟩
      · exact Or.inl hSafe
      · refine Or.inr ⟨hCommit, ?_⟩
        rw [hPuts]
        simpa using hWrites
  have hHeld : ∀ e ∈ db'.store.held, .wrote e ∈ j := by
    intro e he
    rcases hRecovered.held he with ⟨-, hIn⟩ | hIn | hIn
    · exact (hBooked.balanced e.txnId).wrote e rfl hIn
    · exact (hWritten e (db.stored_of_close (Or.inl hIn))).resolve_left id
    · exact (hWritten e (db.stored_of_close (Or.inr hIn))).resolve_left id
  have hSource : ∀ e ∈ db'.store.held, db'.snapshot.1.sees e.txnId = true →
      .wrote e ∈ j ∧ .committed e.txnId ∈ j := by
    intro e he hSeen
    have hWrote := hHeld e he
    refine ⟨hWrote, (hHistory _ (writesOf_ne_nil.mpr ⟨e, hWrote, rfl⟩)).mp ?_⟩
    exact (hRecovered.sound.snapshot_sees _).mp hSeen
  refine ⟨db', hOpen, hHistory, ?_, ?_⟩
  · intro cf key v hGet
    rw [Engine.get_eq] at hGet
    obtain ⟨e, he, hKey, hValue, hSeen⟩ := Store.getAt_source hGet
    obtain ⟨hWrote, hCommitted⟩ := hSource e he hSeen
    exact ⟨e, hWrote, hCommitted, hKey, hValue⟩
  · intro cf start endKey k v hRow
    rw [Engine.scan_eq] at hRow
    obtain ⟨e, he, hKey, hValue, hSeen⟩ := Store.scanAt_source hRow
    obtain ⟨hWrote, hCommitted⟩ := hSource e he hSeen
    exact ⟨e, hWrote, hCommitted, hKey, hValue⟩

end Z1Kv
