import Z1Kv.Txn.LogSteps

/-! The commit history before and after a reopen. A live entry has the clock reading
of its commit as timestamp; the Commit record has the transaction id in its place, and
the checkpoint has no insertion times. -/
namespace Z1Kv

/-- Timestamp and insertion time of a transaction come from one Commit record. -/
theorem replayScan_commit (entries : List WalEntry) (t : TxnId) :
    (AList.lookup t (replayScan entries).committedTxns = none ∧
        AList.lookup t (replayScan entries).insertedAtMap = none) ∨
      ∃ commitTs insertedAt, AList.lookup t (replayScan entries).committedTxns = some commitTs ∧
        AList.lookup t (replayScan entries).insertedAtMap = some insertedAt ∧
        ⟨t, .commit commitTs insertedAt⟩ ∈ entries := by
  induction entries using List.reverseRecOn with
  | nil => exact Or.inl ⟨rfl, rfl⟩
  | append_singleton entries entry ih =>
      rw [replayScan_concat]
      obtain ⟨txnId, record⟩ := entry
      cases record with
      | commit commitTs insertedAt =>
          dsimp only [ReplayScan.record]
          by_cases hTxn : t = txnId
          · subst hTxn
            exact Or.inr ⟨commitTs, insertedAt, AList.lookup_insert _, AList.lookup_insert _, by simp⟩
          · rw [AList.lookup_insert_ne hTxn, AList.lookup_insert_ne hTxn]
            refine ih.imp_right ?_
            rintro ⟨ts, at', hTs, hAt, hIn⟩
            exact ⟨ts, at', hTs, hAt, by simp [hIn]⟩
      | _ =>
          refine ih.imp_right ?_
          rintro ⟨ts, at', hTs, hAt, hIn⟩
          exact ⟨ts, at', hTs, hAt, by simp [hIn]⟩

/-- Phase 2 leaves the insertion times of the scan alone and takes timestamps from
its Commit records. -/
theorem replayTxns_maps {σ : Type} {apply : σ → WalEntry → Except Z1Error Unit × σ} {strictMode : Bool}
    {scan : ReplayScan} {txns : List TxnId} {result result' : RecoveryResult} {state state' : σ}
    (h : replayTxns apply strictMode scan txns result state = .ok (result', state')) :
    result'.insertedAtMap = result.insertedAtMap ∧
      ∀ t commitTs, AList.lookup t result'.commitTsMap = some commitTs →
        AList.lookup t result.commitTsMap = some commitTs ∨
          commitTs = (AList.lookup t scan.committedTxns).getD 0 := by
  induction txns generalizing result state with
  | nil =>
      obtain ⟨rfl, -⟩ := Prod.mk.inj (Except.ok.inj h)
      exact ⟨rfl, fun t commitTs hLookup => Or.inl hLookup⟩
  | cons first rest ih =>
      rw [replayTxns] at h
      split at h
      · exact ih h
      · split at h
        · split at h
          · cases h
          · split at h
            · cases h
            · exact ih h
          · exact ih h
        · obtain ⟨hInserted, hCommit⟩ := ih h
          refine ⟨hInserted, fun t commitTs hLookup => ?_⟩
          rcases hCommit t commitTs hLookup with hLookup | hEq
          · by_cases hTxn : t = first
            · subst hTxn
              rw [AList.lookup_insert] at hLookup
              exact Or.inr (Option.some.inj hLookup).symm
            · rw [AList.lookup_insert_ne hTxn] at hLookup
              exact Or.inl hLookup
          · exact Or.inr hEq

theorem VisibilityManager.lookup_recoverCommittedHistory {m : VisibilityManager}
    {history : List (TxnId × Nat)} {walInsertedAt : FinMap TxnId Nat} {now : Nat} {t : TxnId}
    {e : HistoryEntry}
    (h : AList.lookup t (m.recoverCommittedHistory history walInsertedAt now).committedHistory =
      some e) :
    (t, e.commitTs) ∈ history ∧ e.insertedAt = (AList.lookup t walInsertedAt).getD now := by
  have hFold : ∀ start : VisibilityManager,
      AList.lookup t (history.foldl (fun m pair =>
        { m with
          committedHistory := AList.insert pair.1
            ⟨pair.2, (AList.lookup pair.1 walInsertedAt).getD now⟩ m.committedHistory
          committedTxn := max m.committedTxn pair.1 }) start).committedHistory = some e →
      AList.lookup t start.committedHistory = some e ∨
        (t, e.commitTs) ∈ history ∧ e.insertedAt = (AList.lookup t walInsertedAt).getD now := by
    clear h
    induction history with
    | nil => exact fun start h => Or.inl h
    | cons pair rest ih =>
        intro start h
        rcases ih _ h with hLookup | ⟨hIn, hAt⟩
        · by_cases hTxn : t = pair.1
          · subst hTxn
            dsimp only at hLookup
            rw [AList.lookup_insert] at hLookup
            obtain rfl := Option.some.inj hLookup
            exact Or.inr ⟨by simp, rfl⟩
          · dsimp only at hLookup
            rw [AList.lookup_insert_ne hTxn] at hLookup
            exact Or.inl hLookup
        · exact Or.inr ⟨by simp [hIn], hAt⟩
  exact (hFold { m with committedHistory := ∅ } h).resolve_left (by simp)

/-- History with timestamps of the latest checkpoint. -/
def CheckpointDir.baseline (ckpts : CheckpointDir) : List (TxnId × Nat) :=
  (ckpts.recoveryBaseline.getD (0, [])).2

/-- What a recovered history entry is made of: the timestamp comes from the Commit
record if the transaction was replayed, else from the checkpoint; the insertion time
from the Commit record if there is one, else from the clock. -/
theorem Engine.recovered_entry {codec : Codec} {maxFileSize : Nat} {env : OpenEnv} {config : Z1Config}
    {dir : DataDir} {db : Engine} {entries : List WalEntry}
    (hOpen : openWithConfig codec maxFileSize env config dir = .ok db)
    (hReplay : replayAll codec (WalWriter.openLatest dir.wal (sessionConfig maxFileSize)).dir =
      .ok entries) (hBegin : ∀ e ∈ entries, e.record ≠ .begin) {t : TxnId} {e : HistoryEntry}
    (hLookup : AList.lookup t db.mvcc.committedHistory = some e) :
    (Replayed entries t ∧ (∃ insertedAt, ⟨t, .commit e.commitTs insertedAt⟩ ∈ entries) ∨
        ¬ Replayed entries t ∧ (t, e.commitTs) ∈ dir.checkpoints.baseline) ∧
      (HasCommit entries t ∧ (∃ commitTs, ⟨t, .commit commitTs e.insertedAt⟩ ∈ entries) ∨
        ¬ HasCommit entries t ∧ e.insertedAt = env.now) := by
  obtain ⟨recovery, l1, hRecovery, hState⟩ := openWithConfig_cases hOpen
  obtain ⟨recovery', txns, hEq, -, -, -, hMem⟩ := replayCommittedOps_spec hReplay hBegin
    config.strictMode (MemStore.new (64 * 1024 * 1024))
  obtain ⟨rfl, -⟩ := Prod.mk.inj (Except.ok.inj (hEq.symm.trans hRecovery))
  unfold replayCommittedOps at hRecovery
  rw [hReplay] at hRecovery
  obtain ⟨hInserted, hCommitTs⟩ := replayTxns_maps hRecovery
  have hEntry : (t, e.commitTs) ∈ (mergeHistory (dir.checkpoints.recoveryBaseline.getD (0, [])).2
      recovery'.commitTsMap).entries.map (fun e => (e.1, e.2)) ∧
      e.insertedAt = (AList.lookup t recovery'.insertedAtMap).getD env.now := by
    rw [hState] at hLookup
    exact VisibilityManager.lookup_recoverCommittedHistory hLookup
  obtain ⟨hPair, hAt⟩ := hEntry
  have hMerged : AList.lookup t (mergeHistory dir.checkpoints.baseline recovery'.commitTsMap) =
      some e.commitTs := by
    obtain ⟨⟨u, ts⟩, hIn, hPair⟩ := List.mem_map.mp hPair
    obtain ⟨rfl, rfl⟩ := Prod.mk.inj hPair
    exact FinMap.mem_entries.mp hIn
  have hSource : Replayed entries t ∧ e.commitTs = (AList.lookup t (replayScan entries).committedTxns).getD 0 ∨
      ¬ Replayed entries t ∧ (t, e.commitTs) ∈ dir.checkpoints.baseline := by
    rcases FinMap.lookup_insertAll hMerged with hIn | ⟨hCheckpoint, hOther⟩
    · obtain ⟨⟨u, ts⟩, hPairIn, hPair⟩ := List.mem_map.mp hIn
      obtain ⟨rfl, rfl⟩ := Prod.mk.inj hPair
      have hWal := FinMap.mem_entries.mp hPairIn
      refine Or.inl ⟨(hMem _).mp (FinMap.mem_iff_lookup.mpr ⟨_, hWal⟩), ?_⟩
      exact (hCommitTs _ _ hWal).resolve_left (by simp)
    · refine Or.inr ⟨fun hReplayed => ?_, (FinMap.lookup_insertAll hCheckpoint).resolve_right (by simp)⟩
      obtain ⟨ts, hWal⟩ := FinMap.mem_iff_lookup.mp ((hMem t).mpr hReplayed)
      exact hOther (t, ts) (List.mem_map.mpr ⟨⟨t, ts⟩, FinMap.mem_entries.mpr hWal, rfl⟩) rfl
  rcases replayScan_commit entries t with ⟨hNone, hNoTime⟩ | ⟨commitTs, insertedAt, hTs, hTime, hIn⟩
  · have hNot : ¬ HasCommit entries t := by
      rw [← mem_committedTxns]
      exact AList.lookup_eq_none.mp hNone
    refine ⟨Or.inr (hSource.resolve_left fun hReplayed => hNot hReplayed.1.1), Or.inr ⟨hNot, ?_⟩⟩
    rw [hAt, hInserted, hNoTime]
    rfl
  · refine ⟨hSource.imp_left ?_, Or.inl ⟨⟨commitTs, insertedAt, hIn⟩, commitTs, ?_⟩⟩
    · rintro ⟨hReplayed, hCommit⟩
      refine ⟨hReplayed, insertedAt, ?_⟩
      rw [hCommit, hTs]
      exact hIn
    · rw [hAt, hInserted, hTime]
      exact hIn

section Baseline
variable {codec : Codec} {db : Engine}

theorem CheckpointDir.write_baseline (ckpts : CheckpointDir) (writes : Writes)
    (state : CheckpointState) :
    (ckpts.write writes state).2.baseline = ckpts.baseline ∨
      (ckpts.write writes state).2.baseline = state.committedHistory := by
  unfold write
  cases writes.checkpointFile with
  | false => exact Or.inl rfl
  | true =>
      cases writes.latestPointer with
      | true =>
          refine Or.inr ?_
          simp [baseline, recoveryBaseline, loadLatest]
      | false =>
          by_cases hLatest : ckpts.latest = some state.checkpointId
          · refine Or.inr ?_
            simp [baseline, recoveryBaseline, loadLatest, hLatest]
          · refine Or.inl ?_
            cases hId : ckpts.latest with
            | none => simp [baseline, recoveryBaseline, loadLatest, hId]
            | some id =>
                have hNe : id ≠ state.checkpointId := by
                  rintro rfl
                  exact hLatest hId
                simp [baseline, recoveryBaseline, loadLatest, hId, AList.lookup_insert_ne hNe]

/-- A checkpoint keeps the baseline or replaces it by the history. -/
theorem Engine.checkpoint_baseline (db : Engine) (writes : Writes) :
    (db.checkpoint codec writes).2.checkpoints.baseline = db.checkpoints.baseline ∨
      (db.checkpoint codec writes).2.checkpoints.baseline = db.mvcc.committedHistoryEntries := by
  have hWrite := db.checkpoints.write_baseline writes db.checkpointState
  unfold checkpoint flushNow
  dsimp only
  generalize db.store.flushL1ToL2 writes.patch = flushed
  obtain ⟨result, store⟩ := flushed
  cases result with
  | error e => exact Or.inl rfl
  | ok groups =>
      dsimp only
      generalize db.wal.flushAndSync codec = synced
      obtain ⟨result, wal⟩ := synced
      cases result with
      | error e => exact Or.inl rfl
      | ok _ =>
          dsimp only [checkpointState, writeCheckpoint] at hWrite ⊢
          generalize db.checkpoints.write writes _ = written at hWrite ⊢
          obtain ⟨result, checkpoints⟩ := written
          cases result with
          | error e => exact hWrite
          | ok _ =>
              dsimp only [appendMarker]
              generalize wal.appendDurable codec _ _ = appended
              obtain ⟨result, wal⟩ := appended
              cases result with
              | error e => exact hWrite
              | ok _ => exact hWrite

theorem Engine.maintain_baseline (db : Engine) (writes : Writes) :
    (db.maybeAutoMaintain codec writes).2.checkpoints.baseline = db.checkpoints.baseline ∨
      (db.maybeAutoMaintain codec writes).2.checkpoints.baseline = db.mvcc.committedHistoryEntries := by
  rw [(maybeAutoMaintain_disk db writes).2]
  unfold maintainCheckpoint
  split
  · exact db.checkpoint_baseline writes
  · exact Or.inl rfl

/-- A call keeps the baseline or replaces it by the history it leaves. -/
theorem Engine.step_baseline (db : Engine) (op : Op) :
    (db.step codec op).2.checkpoints.baseline = db.checkpoints.baseline ∨
      (db.step codec op).2.checkpoints.baseline = (db.step codec op).2.mvcc.committedHistoryEntries := by
  have hWrite : ∀ cf key value txnId,
      (db.write codec cf key value txnId).2.checkpoints = db.checkpoints := by
    intro cf key value txnId
    rcases db.write_cases codec cf key value txnId with ⟨-, hEq⟩ | ⟨-, hEq⟩
    · rw [hEq]
    · rw [hEq]
  cases op with
  | put cf key value txnId =>
      refine Or.inl ?_
      rw [step, put, Prod.map_snd, id, hWrite]
  | delete cf key txnId =>
      refine Or.inl ?_
      rw [step, delete, Prod.map_snd, id, hWrite]
  | commit txnId env =>
      rw [step, Prod.map_snd, id]
      rcases db.commit_cases codec env txnId with ⟨-, hEq⟩ | ⟨e, wal, -, -, hEq⟩ |
        ⟨txn, conflict, wal, -, -, -, hEq⟩ | ⟨txn, wal, -, -, -, hEq⟩
      · rw [hEq]
        exact Or.inl rfl
      · rw [hEq]
        exact Or.inl rfl
      · rw [hEq]
        exact Or.inl rfl
      · have hSame := ((db.committing codec env txnId).maybeAutoMaintain_spec codec env.writes).1
        rw [hEq]
        dsimp only
        rw [hSame.mvcc]
        exact (db.committing codec env txnId).maintain_baseline env.writes
  | rollback txnId =>
      refine Or.inl ?_
      rw [step, Prod.map_snd, id]
      rcases db.rollback_cases codec txnId with ⟨-, hEq⟩ | ⟨e, wal, -, -, hEq⟩ | ⟨wal, -, -, hEq⟩
      · rw [hEq]
      · rw [hEq]
      · rw [hEq]
  | checkpoint writes =>
      rw [step, Prod.map_snd, id, (db.checkpoint_spec codec writes).1.mvcc]
      exact db.checkpoint_baseline writes
  | _ =>
      refine Or.inl ?_
      rw [(step_quiet rfl (by simp) (by simp) (by simp)).2]

end Baseline

/-- A history entry is an old one, or that of the commit just made. -/
theorem Engine.MvccEffect.lookup {db : Engine} {op : Op} {reply : Reply} {mvcc : VisibilityManager}
    (h : db.MvccEffect op reply mvcc) {t : TxnId} {e : HistoryEntry}
    (hLookup : AList.lookup t mvcc.committedHistory = some e) :
    AList.lookup t db.mvcc.committedHistory = some e ∨
      ∃ env, op = .commit t env ∧ t ∈ db.mvcc.activeTxns ∧ e = ⟨env.ts, env.insertedAt⟩ := by
  cases h with
  | begun hBegin =>
      obtain ⟨-, -, rfl⟩ := VisibilityManager.beginTxn_eq_ok hBegin
      exact Or.inl hLookup
  | wrote =>
      rw [VisibilityManager.recordWrite, VisibilityManager.modifyActive_committedHistory] at hLookup
      exact Or.inl hLookup
  | read =>
      rw [VisibilityManager.recordRead, VisibilityManager.modifyActive_committedHistory] at hLookup
      exact Or.inl hLookup
  | @committed txnId env txn hActive hSsi =>
      rcases VisibilityManager.lookup_committed hLookup with ⟨rfl, rfl⟩ | hOld
      · exact Or.inr ⟨env, rfl, FinMap.mem_iff_lookup.mpr ⟨txn, hActive⟩, rfl⟩
      · exact Or.inl hOld
  | conflicted => exact Or.inl hLookup
  | rolledBack => exact Or.inl hLookup
  | failed => exact Or.inl hLookup
  | idle => exact Or.inl hLookup

/-- What a Commit record in the log says of its transaction. -/
structure Stamped (j : List News) (m : VisibilityManager) (t : TxnId) (commitTs insertedAt : Nat) :
    Prop where
  isId : commitTs = t
  began : .began t ∈ j
  ended : t ∉ m.activeTxns
  entry : ∀ e, AList.lookup t m.committedHistory = some e → e.insertedAt = insertedAt

/-- The log and the checkpoint agree with the history as far as they say the same. -/
structure Clocked (codec : Codec) (maxFileSize : Nat) (base : TxnId) (j : List News) (db : Engine) :
    Prop where
  ledger : Ledger base j db.mvcc db.txnCounter
  log : ∃ log, db.wal.Logs codec maxFileSize log ∧ (∀ op ∈ log.entries, op.record ≠ .begin) ∧
    ∀ t commitTs insertedAt, ⟨t, .commit commitTs insertedAt⟩ ∈ log.entries →
      Stamped j db.mvcc t commitTs insertedAt
  baseline : ∀ t ts, (t, ts) ∈ db.checkpoints.baseline → t ≤ base ∨ .committed t ∈ j ∧
    ∀ e, AList.lookup t db.mvcc.committedHistory = some e → e.commitTs = ts

section
variable {codec : Codec} {maxFileSize : Nat} {base : TxnId} {past : List (Op × Reply)} {db : Engine}
  {op : Op}

/-- A commit whose record is in the log has ended its transaction. -/
theorem Engine.commit_ends {log : SegmentLog} (h : db.wal.Logs codec maxFileSize log) {t : TxnId}
    {env : CommitEnv} (hFits : codec.Fits ⟨t, .commit t env.insertedAt⟩)
    (hActive : t ∈ db.mvcc.activeTxns) : t ∉ (db.step codec (.commit t env)).2.mvcc.activeTxns := by
  rw [step, Prod.map_snd, id]
  rcases db.commit_cases codec env t with ⟨hNot, -⟩ | ⟨e, wal, -, hAppend, -⟩ |
    ⟨txn, conflict, wal, -, -, -, hEq⟩ | ⟨txn, wal, -, -, -, hEq⟩
  · exact absurd hActive hNot
  · rw [h.toInSession.appendDurable_eq] at hAppend
    rcases WalWriter.InSession.append_cases h.toInSession t (.commit t env.insertedAt) with
      ⟨-, hOk⟩ | ⟨hNot, -⟩
    · rw [hOk] at hAppend
      cases (Prod.mk.inj hAppend).1
    · exact absurd hFits hNot
  · rw [hEq]
    dsimp only
    rw [VisibilityManager.abortTxn_activeTxns, AList.mem_erase]
    exact fun hIn => hIn.1 rfl
  · have hSame := ((db.committing codec env t).maybeAutoMaintain_spec codec env.writes).1
    rw [hEq]
    dsimp only
    rw [hSame.mvcc, committing, VisibilityManager.committed_activeTxns, AList.mem_erase]
    exact fun hIn => hIn.1 rfl

theorem Stamped.step {t : TxnId} {commitTs insertedAt : Nat}
    (h : Stamped (journal past) db.mvcc t commitTs insertedAt)
    (hLedger : Ledger base (journal past) db.mvcc db.txnCounter) :
    Stamped (journal past ++ [news (op, (db.step codec op).1)]) (db.step codec op).2.mvcc t commitTs
      insertedAt := by
  have hEffect := db.step_mvcc codec op
  refine ⟨h.isId, List.mem_append_left _ h.began, fun hActive => ?_, fun e hLookup => ?_⟩
  · rcases hEffect.journalStep.active hActive with hWas | ⟨-, hNew⟩
    · exact h.ended hWas
    · exact absurd (hLedger.began t h.began).2 (Nat.not_lt.mpr hNew)
  · rcases hEffect.lookup hLookup with hOld | ⟨env, -, hActive, -⟩
    · exact h.entry e hOld
    · exact absurd hActive h.ended

/-- The record that a commit appends. -/
theorem Stamped.of_commit {log : SegmentLog} (hLogs : db.wal.Logs codec maxFileSize log)
    (hLedger : Ledger base (journal past) db.mvcc db.txnCounter) {t : TxnId} {env : CommitEnv}
    (hFits : codec.Fits ⟨t, .commit t env.insertedAt⟩) (hActive : t ∈ db.mvcc.activeTxns) :
    Stamped (journal past ++ [news (.commit t env, (db.step codec (.commit t env)).1)])
      (db.step codec (.commit t env)).2.mvcc t t env.insertedAt := by
  refine ⟨rfl, List.mem_append_left _ (hLedger.active_mem hActive),
    Engine.commit_ends hLogs hFits hActive, fun e hLookup => ?_⟩
  rcases (db.step_mvcc codec (.commit t env)).lookup hLookup with hOld | ⟨env', hOp, -, rfl⟩
  · have hIn := hLedger.history t (FinMap.mem_iff_lookup.mpr ⟨e, hOld⟩)
    exact absurd hActive (hLedger.not_active_of_baseline hIn)
  · rw [(Op.commit.inj hOp).2]

theorem Clocked.step (h : Clocked codec maxFileSize base (journal past) db) :
    Clocked codec maxFileSize base (journal past ++ [news (op, (db.step codec op).1)])
      (db.step codec op).2 := by
  have hLedger := h.ledger.step_call codec op
  have hEffect := db.step_mvcc codec op
  obtain ⟨log, hLogs, hBegin, hStamped⟩ := h.log
  obtain ⟨log', hLogs', hRecords⟩ := Engine.step_records hLogs op
  refine ⟨hLedger, ⟨log', hLogs', fun record hIn => ?_, fun t commitTs insertedAt hIn => ?_⟩, ?_⟩
  · rcases hRecords record hIn with hOld | hNew | ⟨id, hMarker⟩
    · exact hBegin record hOld
    · obtain ⟨hRecord, -⟩ := Engine.mem_appended.mp hNew
      cases op <;> first | cases hRecord; simp | cases hRecord
    · simp [hMarker]
  · rcases hRecords _ hIn with hOld | hNew | ⟨id, hMarker⟩
    · exact (hStamped t commitTs insertedAt hOld).step h.ledger
    · obtain ⟨hRecord, hActive, hFits⟩ := Engine.mem_appended.mp hNew
      cases op with
      | commit txnId env =>
          obtain ⟨rfl, hCommit⟩ := WalEntry.mk.inj (Option.some.inj hRecord)
          obtain ⟨rfl, rfl⟩ := WalRecord.commit.inj hCommit
          exact .of_commit hLogs h.ledger hFits hActive
      | _ => cases hRecord
    · cases hMarker
  · intro t ts hIn
    rcases @Engine.step_baseline codec db op with hSame | hNewBase
    · rw [hSame] at hIn
      refine (h.baseline t ts hIn).imp_right ?_
      rintro ⟨hCommitted, hEntry⟩
      refine ⟨List.mem_append_left _ hCommitted, fun e hLookup => ?_⟩
      rcases hEffect.lookup hLookup with hOld | ⟨env, -, hActive, -⟩
      · exact hEntry e hOld
      · exact absurd hActive (h.ledger.committed t hCommitted).1
    · rw [hNewBase] at hIn
      obtain ⟨⟨u, entry⟩, hPair, hEq⟩ := List.mem_map.mp hIn
      obtain ⟨rfl, rfl⟩ := Prod.mk.inj hEq
      have hLookup := FinMap.mem_ascending.mp hPair
      refine (hLedger.history _ (FinMap.mem_iff_lookup.mpr ⟨entry, hLookup⟩)).imp_right ?_
      intro hCommitted
      refine ⟨hCommitted, fun e hOther => ?_⟩
      rw [Option.some.inj (hOther.symm.trans hLookup)]

end

/-- An open on a directory whose WAL is empty. -/
theorem Clocked.of_open {codec : Codec} {maxFileSize : Nat} {env : OpenEnv} {config : Z1Config}
    {dir : DataDir} {db : Engine}
    (h : Engine.openWithConfig codec maxFileSize env config dir = .ok db) (hWal : dir.wal = []) :
    Clocked codec maxFileSize db.mvcc.committedTxn (journal []) db := by
  obtain ⟨hAligned, hQueue, hConfig⟩ :=
    WalWriter.openLatest_nil codec (sessionConfig maxFileSize)
  have hLogs : (WalWriter.openLatest [] (sessionConfig maxFileSize)).Logs codec maxFileSize
      [{ seq := 0, entries := [] }] :=
    ⟨hAligned.toAtEnd, ⟨hConfig, hQueue⟩, by simp⟩
  obtain ⟨recovery, l1, -, hState⟩ := Engine.openWithConfig_cases h
  have hEngineWal : db.wal = WalWriter.openLatest [] (sessionConfig maxFileSize) := by
    rw [hState, hWal]
  have hCheckpoints : db.checkpoints = dir.checkpoints := by rw [hState]
  refine ⟨.of_open h, ⟨_, by rw [hEngineWal]; exact hLogs, by simp, by simp⟩, fun t ts hIn => Or.inl ?_⟩
  -- the baseline is part of the recovered history
  have hHistory : t ∈ db.mvcc.committedHistory := by
    rw [hState]
    dsimp only [VisibilityManager.setReplayWatermark]
    rw [(VisibilityManager.recoverCommittedHistory_spec _ _ _ _).2.2.1 t, List.map_map]
    refine AList.mem_keys.mp (mem_mergeHistory.mpr (Or.inl ?_))
    rw [hCheckpoints] at hIn
    exact List.mem_map.mpr ⟨(t, ts), hIn, rfl⟩
  exact (Engine.sound_of_open h).coherent.below t hHistory

theorem Clocked.run {codec : Codec} {maxFileSize : Nat} {base : TxnId} {db : Engine}
    (h : Clocked codec maxFileSize base (journal []) db) (ops : List Op) :
    Clocked codec maxFileSize base (journal (db.run codec ops).1) (db.run codec ops).2 := by
  have hRun := runs_invariant (fun past db' => Clocked codec maxFileSize base (journal past) db')
    (fun _ _ _ => True) (fun past db' op hIn _ => by rw [journal_concat]; exact hIn.step) h
    (EachMeets.of_forall fun (op : Op) (_ : op ∈ ops) => trivial)
  simpa using hRun

/-- The condition under which a reopen brings the entry of a transaction back as it
was. -/
def Restorable (entries : List WalEntry) (ckpts : CheckpointDir) (now : Nat) (t : TxnId)
    (commitTs insertedAt : Nat) : Prop :=
  Replayed entries t ∧ commitTs = t ∨
    ¬ Replayed entries t ∧ t ∈ ckpts.history ∧ (HasCommit entries t ∨ insertedAt = now)

theorem Clocked.reopen {codec : Codec} {maxFileSize : Nat} {base : TxnId} {j : List News} {db : Engine}
    (h : Clocked codec maxFileSize base j db) (env : OpenEnv) (config : Z1Config) :
    ∃ entries db', replayAll codec db.wal.dir = .ok entries ∧
      Engine.openWithConfig codec maxFileSize env config (db.close codec) = .ok db' ∧
      ∀ t commitTs insertedAt, .committed t ∈ j →
        db.mvcc.committedEntry t = some (commitTs, insertedAt) →
          (db'.mvcc.committedEntry t = some (commitTs, insertedAt) ↔
            Restorable entries db.checkpoints env.now t commitTs insertedAt) := by
  obtain ⟨log, hLogs, hBegin, hStamped⟩ := h.log
  obtain ⟨db', hOpen, hRecovered⟩ := @open_recovers codec maxFileSize env config (db.close codec)
    log.entries (hLogs.reopened _) hBegin
  refine ⟨log.entries, db', hLogs.replay, hOpen, fun t commitTs insertedAt hCommitted hLive => ?_⟩
  have hLookup : AList.lookup t db.mvcc.committedHistory = some ⟨commitTs, insertedAt⟩ := by
    obtain ⟨e, hLookup, hEq⟩ := Option.map_eq_some_iff.mp hLive
    obtain ⟨rfl, rfl⟩ := Prod.mk.inj hEq
    exact hLookup
  have hTime : ∀ ts at', ⟨t, .commit ts at'⟩ ∈ log.entries → insertedAt = at' :=
    fun ts at' hIn => (hStamped t ts at' hIn).entry _ hLookup
  have hEntry : ∀ {e}, AList.lookup t db'.mvcc.committedHistory = some e →
      (Replayed log.entries t ∧ (∃ at', ⟨t, .commit e.commitTs at'⟩ ∈ log.entries) ∨
          ¬ Replayed log.entries t ∧ (t, e.commitTs) ∈ db.checkpoints.baseline) ∧
        (HasCommit log.entries t ∧ (∃ ts, ⟨t, .commit ts e.insertedAt⟩ ∈ log.entries) ∨
          ¬ HasCommit log.entries t ∧ e.insertedAt = env.now) :=
    fun hLookup' => Engine.recovered_entry hOpen (hLogs.reopened _) hBegin hLookup'
  constructor
  · intro hSame
    obtain ⟨e, hLookup', hEq⟩ := Option.map_eq_some_iff.mp hSame
    obtain ⟨rfl, rfl⟩ := Prod.mk.inj hEq
    rcases hEntry hLookup' with ⟨⟨hReplayed, at', hIn⟩ | ⟨hNot, hIn⟩, hAt⟩
    · exact Or.inl ⟨hReplayed, (hStamped t _ _ hIn).isId⟩
    · exact Or.inr ⟨hNot, List.mem_map.mpr ⟨_, hIn, rfl⟩, hAt.imp (·.1) (·.2)⟩
  · intro hRestorable
    have hIn : t ∈ db'.mvcc.committedHistory := by
      rw [hRecovered.history]
      exact hRestorable.symm.imp (·.2.1) (·.1)
    obtain ⟨e, hLookup'⟩ := FinMap.mem_iff_lookup.mp hIn
    obtain ⟨hTs, hAt⟩ := hEntry hLookup'
    have hCommitTs : e.commitTs = commitTs := by
      rcases hTs with ⟨hReplayed, at', hIn⟩ | ⟨hNot, hIn⟩
      · rcases hRestorable with ⟨-, rfl⟩ | ⟨hNot, -⟩
        · exact (hStamped _ _ _ hIn).isId
        · exact absurd hReplayed hNot
      · rcases h.baseline t _ hIn with hOld | ⟨-, hSame⟩
        · have hBegan := (h.ledger.committed t hCommitted).2.began
          exact absurd (h.ledger.began t hBegan).1 (Nat.not_lt.mpr hOld)
        · exact (hSame _ hLookup).symm
    have hInsertedAt : e.insertedAt = insertedAt := by
      rcases hAt with ⟨-, ts, hIn⟩ | ⟨hNone, hNow⟩
      · exact (hTime ts _ hIn).symm
      · rcases hRestorable with ⟨hReplayed, -⟩ | ⟨-, -, hHas | hEq⟩
        · exact absurd hReplayed.1 hNone
        · exact absurd hHas hNone
        · rw [hNow, hEq]
    rw [VisibilityManager.committedEntry, hLookup', ← hCommitTs, ← hInsertedAt]
    rfl

/-- A reopen brings the history entry of a commit back as it was exactly when the
transaction is replayed and its timestamp happens to be its id, or it is in the
checkpoint and its insertion time is still to be had. -/
theorem recovered_entry_iff {codec : Codec} {maxFileSize : Nat} {env : OpenEnv} {config : Z1Config}
    {dir : DataDir} {db : Engine}
    (hOpen : Engine.openWithConfig codec maxFileSize env config dir = .ok db) (hWal : dir.wal = [])
    (ops : List Op) (env' : OpenEnv) (config' : Z1Config) :
    ∃ entries db', replayAll codec (db.run codec ops).2.wal.dir = .ok entries ∧
      Engine.openWithConfig codec maxFileSize env' config' ((db.run codec ops).2.close codec) =
        .ok db' ∧
      ∀ t commitTs insertedAt, .committed t ∈ journal (db.run codec ops).1 →
        (db.run codec ops).2.mvcc.committedEntry t = some (commitTs, insertedAt) →
          (db'.mvcc.committedEntry t = some (commitTs, insertedAt) ↔
            Restorable entries (db.run codec ops).2.checkpoints env'.now t commitTs insertedAt) :=
  ((Clocked.of_open hOpen hWal).run ops).reopen env' config'

/-- A commit whose clock reading is its id. -/
def luckyRun : List Op :=
  [.begin, .put 0 [107] [1] 1, .commit 1 ⟨7, 1, 7, .listed, .succeed⟩]

theorem lucky_entry_is_recovered :
    ∃ db db', Engine.openWithConfig Postcard.codec engineSegmentSize (.listed 0) {} {} = .ok db ∧
      Engine.openWithConfig Postcard.codec engineSegmentSize (.listed 9) {}
        ((db.run Postcard.codec luckyRun).2.close Postcard.codec) = .ok db' ∧
      db'.mvcc.committedEntry 1 = some (1, 7) := by
  have hRun : (Engine.openWithConfig Postcard.codec engineSegmentSize (.listed 0) {} {}).toOption.bind
      (fun db => (replayAll Postcard.codec
        (db.run Postcard.codec luckyRun).2.wal.dir).toOption.map fun entries =>
          (journal (db.run Postcard.codec luckyRun).1,
            (db.run Postcard.codec luckyRun).2.mvcc.committedEntry 1, entries)) =
      some ([.began 1, .wrote ⟨⟨0, [107]⟩, 1, some [1]⟩, .committed 1], some (1, 7),
        [⟨1, .put 0 [107] (some [1])⟩, ⟨1, .commit 1 7⟩]) := by
    decide +kernel
  obtain ⟨db, hDb, hRest⟩ := Option.bind_eq_some_iff.mp hRun
  obtain ⟨entries, hEntries, hState⟩ := Option.map_eq_some_iff.mp hRest
  simp only [Prod.mk.injEq] at hState
  obtain ⟨hJournal, hLive, rfl⟩ := hState
  obtain ⟨entries, db', hReplay, hOpen', hIff⟩ :=
    recovered_entry_iff (ok_of_toOption hDb) rfl luckyRun (.listed 9) {}
  obtain rfl := Except.ok.inj ((ok_of_toOption hEntries).symm.trans hReplay)
  refine ⟨db, db', ok_of_toOption hDb, hOpen', (hIff 1 1 7 (by rw [hJournal]; simp) hLive).mpr ?_⟩
  exact Or.inl ⟨⟨⟨1, 7, by simp⟩, by decide⟩, rfl⟩

/-- A commit at clock reading 5. -/
def plainCommitRun : List Op :=
  [.begin, .put 0 [107] [1] 1, .commit 1 ⟨5, 5, 5, .listed, .succeed⟩]

/-- The reopen has the transaction id in place of the timestamp. -/
theorem recovered_entry_differs :
    ¬ ∀ ops db db', Engine.openWithConfig Postcard.codec engineSegmentSize (.listed 0) {} {} = .ok db →
      Engine.openWithConfig Postcard.codec engineSegmentSize (.listed 9) {}
        ((db.run Postcard.codec ops).2.close Postcard.codec) = .ok db' →
      ∀ t, writesOf (journal (db.run Postcard.codec ops).1) t ≠ [] →
        .committed t ∈ journal (db.run Postcard.codec ops).1 →
        db'.mvcc.committedEntry t = (db.run Postcard.codec ops).2.mvcc.committedEntry t := by
  intro h
  have hRun : (Engine.openWithConfig Postcard.codec engineSegmentSize (.listed 0) {} {}).toOption.bind
      (fun db => (Engine.openWithConfig Postcard.codec engineSegmentSize (.listed 9) {}
        ((db.run Postcard.codec plainCommitRun).2.close Postcard.codec)).toOption.map fun db' =>
          (journal (db.run Postcard.codec plainCommitRun).1,
            (db.run Postcard.codec plainCommitRun).2.mvcc.committedEntry 1,
            db'.mvcc.committedEntry 1)) =
      some ([.began 1, .wrote ⟨⟨0, [107]⟩, 1, some [1]⟩, .committed 1], some (5, 5), some (1, 5)) := by
    decide +kernel
  obtain ⟨db, hDb, hRest⟩ := Option.bind_eq_some_iff.mp hRun
  obtain ⟨db', hDb', hState⟩ := Option.map_eq_some_iff.mp hRest
  simp only [Prod.mk.injEq] at hState
  obtain ⟨hJournal, hBefore, hAfter⟩ := hState
  have hSame := h plainCommitRun db db' (ok_of_toOption hDb) (ok_of_toOption hDb') 1
    (by rw [hJournal]; decide) (by rw [hJournal]; simp)
  rw [hBefore, hAfter] at hSame
  cases hSame

end Z1Kv
