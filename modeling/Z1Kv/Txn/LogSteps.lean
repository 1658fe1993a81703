import Z1Kv.Txn.Agreement

/-! What one call can do to the log, said once: it appends at most one record of its
own, and a checkpoint may then delete segments and leave its marker. -/
namespace Z1Kv

/-- The record that a call is about. -/
def Op.record? : Op → Option WalEntry
  | .put cf key value txnId => some ⟨txnId, .put cf key (some value)⟩
  | .delete cf key txnId => some ⟨txnId, .put cf key none⟩
  | .commit txnId env => some ⟨txnId, .commit txnId env.insertedAt⟩
  | .rollback txnId => some ⟨txnId, .rollback⟩
  | _ => none

theorem Op.record?_of_entry {op : Op} {e : Z1Entry} (h : op.write? = some e) :
    op.record? = some e.logged := by
  cases op with
  | put cf key value txnId => rw [← Option.some.inj h]; rfl
  | delete cf key txnId => rw [← Option.some.inj h]; rfl
  | _ => cases h

theorem Op.entry_of_record? {op : Op} {e : Z1Entry} (h : op.record? = some e.logged) :
    op.write? = some e := by
  obtain ⟨⟨cf, key⟩, txnId, value⟩ := e
  cases op <;> cases h <;> rfl

namespace Engine
variable {codec : Codec} {maxFileSize : Nat} {db : Engine} {log : SegmentLog}

/-- The records that a call appends for its transaction: one, if the transaction is
active and the record is within the limit. -/
def appended (codec : Codec) (db : Engine) (op : Op) : List WalEntry :=
  (op.record?.filter fun record => record.txnId ∈ db.mvcc.activeTxns ∧ codec.Fits record).toList

theorem appended_eq {op : Op} {record : WalEntry} (h : op.record? = some record)
    (hActive : record.txnId ∈ db.mvcc.activeTxns) (hFits : codec.Fits record) :
    db.appended codec op = [record] := by
  simp [appended, h, hActive, hFits]

theorem mem_appended {op : Op} {record : WalEntry} : record ∈ db.appended codec op ↔
    op.record? = some record ∧ record.txnId ∈ db.mvcc.activeTxns ∧ codec.Fits record := by
  simp [appended, Option.filter_eq_some_iff]

theorem appended_of_not {op : Op} {record : WalEntry} (h : op.record? = some record)
    (hNot : ¬ (record.txnId ∈ db.mvcc.activeTxns ∧ codec.Fits record)) :
    db.appended codec op = [] := by
  rw [appended, h, Option.filter_some, if_neg (by simpa using hNot)]
  rfl

/-- A checkpoint of this call may have shortened the log. -/
def Shortens (codec : Codec) (maxFileSize : Nat) (db : Engine) (op : Op) (middle log' : SegmentLog) :
    Prop :=
  ∃ after writes pos, db.checkpointing? codec op = some (after, writes) ∧
    after.wal.Logs codec maxFileSize middle ∧ after.truncation? codec writes = some pos ∧
    log'.entries = (middle.since pos).entries ++ [after.marker]

/-- An append by an active transaction adds its record to the log if it fits. -/
theorem log_append (h : db.wal.Logs codec maxFileSize log) (op : Op) {record : WalEntry}
    (hRecord : op.record? = some record) (hActive : record.txnId ∈ db.mvcc.activeTxns) :
    ∃ log', (db.wal.append codec record.txnId record.record).2.Logs codec maxFileSize log' ∧
      log'.entries = log.entries ++ db.appended codec op := by
  rcases h.append record.txnId record.record with ⟨w', log', hEq, hLogs, hGrows⟩ | ⟨hNot, e, hEq⟩
  · have hFits : codec.Fits record := by
      by_contra hNot
      rcases WalWriter.InSession.append_cases h.toInSession record.txnId record.record with
        ⟨hFits, -⟩ | ⟨-, e, hErr⟩
      · exact hNot hFits
      · rw [hErr] at hEq
        cases (Prod.mk.inj hEq).1
    refine ⟨log', by rw [hEq]; exact hLogs, ?_⟩
    rw [hGrows.entries, appended_eq hRecord hActive hFits]
  · refine ⟨log, by rw [hEq]; exact h, ?_⟩
    rw [appended_of_not hRecord fun hBoth => hNot hBoth.2, List.append_nil]

theorem write_log (h : db.wal.Logs codec maxFileSize log) (op : Op) {e : Z1Entry}
    (hEntry : op.write? = some e)
    (hStep : db.step codec op = (db.write codec e.key.cf e.key.key e.value e.txnId).map
      (Reply.ofResult fun _ => .done) id) :
    ∃ log', (db.step codec op).2.wal.Logs codec maxFileSize log' ∧
      log'.entries = log.entries ++ db.appended codec op := by
  have hRecord := Op.record?_of_entry hEntry
  rw [hStep]
  rcases db.write_cases codec e.key.cf e.key.key e.value e.txnId with ⟨hNot, hEq⟩ | ⟨hActive, hEq⟩
  · rw [hEq]
    refine ⟨log, h, ?_⟩
    rw [appended_of_not hRecord fun hBoth => hNot hBoth.1, List.append_nil]
  · rw [hEq]
    exact log_append h op hRecord hActive

/-- Maintenance leaves the log alone or shortens it. -/
theorem maintain_log (h : db.wal.Logs codec maxFileSize log) (writes : Writes) :
    ∃ log', (db.maybeAutoMaintain codec writes).2.wal.Logs codec maxFileSize log' ∧
      (log' = log ∨ (db.config.checkpointWalSizeThreshold > 0 ∧
        db.wal.dir.sizeBytes ≥ db.config.checkpointWalSizeThreshold) ∧
          ∃ pos, db.truncation? codec writes = some pos ∧
            log'.entries = (log.since pos).entries ++ [db.marker]) := by
  rw [(maybeAutoMaintain_disk db writes).1]
  unfold maintainCheckpoint
  split
  · next hDue =>
    obtain ⟨log', hLogs, hEffect⟩ := checkpoint_effect h writes
    refine ⟨log', hLogs, ?_⟩
    rcases hEffect with ⟨-, hSame⟩ | ⟨-, -, hSame | hShort⟩
    · exact Or.inl hSame
    · exact Or.inl hSame
    · exact Or.inr ⟨hDue, hShort⟩
  · exact ⟨log, h, Or.inl rfl⟩

theorem commit_log (h : db.wal.Logs codec maxFileSize log) (txnId : TxnId) (env : CommitEnv) :
    ∃ middle log', (db.step codec (.commit txnId env)).2.wal.Logs codec maxFileSize log' ∧
      middle.entries = log.entries ++ db.appended codec (.commit txnId env) ∧
      (log' = middle ∨ db.Shortens codec maxFileSize (.commit txnId env) middle log') := by
  have hStep : (db.step codec (.commit txnId env)).2 = (db.commit codec env txnId).2 := by
    rw [step, Prod.map_snd, id]
  have hDurable := @WalWriter.InSession.appendDurable_eq codec maxFileSize db.wal h.toInSession txnId
    (.commit txnId env.insertedAt)
  rw [hStep]
  rcases db.commit_cases codec env txnId with ⟨hNot, hEq⟩ | ⟨e, wal, hActive, hAppend, hEq⟩ |
    ⟨txn, conflict, wal, hLookup, -, hAppend, hEq⟩ | ⟨txn, wal, hLookup, -, hAppend, hEq⟩
  · rw [hEq]
    refine ⟨log, log, h, ?_, Or.inl rfl⟩
    rw [appended_of_not rfl fun hBoth => hNot hBoth.1, List.append_nil]
  · obtain ⟨log', hLogs, hEntries⟩ := log_append h (.commit txnId env) rfl hActive
    rw [hDurable] at hAppend
    rw [hEq]
    refine ⟨log', log', ?_, hEntries, Or.inl rfl⟩
    rwa [hAppend] at hLogs
  · obtain ⟨log', hLogs, hEntries⟩ := log_append h (.commit txnId env) rfl
      (FinMap.mem_iff_lookup.mpr ⟨txn, hLookup⟩)
    rw [hDurable] at hAppend
    rw [hEq]
    refine ⟨log', log', ?_, hEntries, Or.inl rfl⟩
    rwa [hAppend] at hLogs
  · obtain ⟨middle, hMiddle, hEntries⟩ := log_append h (.commit txnId env) rfl
      (FinMap.mem_iff_lookup.mpr ⟨txn, hLookup⟩)
    have hCommitting : (db.committing codec env txnId).wal.Logs codec maxFileSize middle := by
      dsimp only [committing]
      rw [hDurable]
      exact hMiddle
    obtain ⟨log', hLogs, hEffect⟩ := maintain_log hCommitting env.writes
    rw [hEq]
    refine ⟨middle, log', hLogs, hEntries, hEffect.imp_right ?_⟩
    rintro ⟨hDue, pos, hPos, hShort⟩
    refine ⟨db.committing codec env txnId, env.writes, pos, ?_, hCommitting, hPos, hShort⟩
    dsimp only [checkpointing?]
    rw [hEq]
    exact if_pos hDue

theorem rollback_log (h : db.wal.Logs codec maxFileSize log) (txnId : TxnId) :
    ∃ log', (db.step codec (.rollback txnId)).2.wal.Logs codec maxFileSize log' ∧
      log'.entries = log.entries ++ db.appended codec (.rollback txnId) := by
  have hStep : (db.step codec (.rollback txnId)).2 = (db.rollback codec txnId).2 := by
    rw [step, Prod.map_snd, id]
  rw [hStep]
  rcases db.rollback_cases codec txnId with ⟨hNot, hEq⟩ | ⟨e, wal, hActive, hAppend, hEq⟩ |
    ⟨wal, hActive, hAppend, hEq⟩
  · rw [hEq]
    refine ⟨log, h, ?_⟩
    rw [appended_of_not rfl fun hBoth => hNot hBoth.1, List.append_nil]
  · obtain ⟨log', hLogs, hEntries⟩ := log_append h (.rollback txnId) rfl hActive
    rw [hEq]
    refine ⟨log', ?_, hEntries⟩
    rwa [hAppend] at hLogs
  · obtain ⟨log', hLogs, hEntries⟩ := log_append h (.rollback txnId) rfl hActive
    rw [hEq]
    refine ⟨log', ?_, hEntries⟩
    rwa [hAppend] at hLogs

/-- The log after a call. -/
theorem step_log (h : db.wal.Logs codec maxFileSize log) (op : Op) :
    ∃ middle log', (db.step codec op).2.wal.Logs codec maxFileSize log' ∧
      middle.entries = log.entries ++ db.appended codec op ∧
      (log' = middle ∨ db.Shortens codec maxFileSize op middle log') := by
  have hQuiet : op.record? = none → (∀ writes, op ≠ .checkpoint writes) →
      ∃ middle log', (db.step codec op).2.wal.Logs codec maxFileSize log' ∧
        middle.entries = log.entries ++ db.appended codec op ∧
        (log' = middle ∨ db.Shortens codec maxFileSize op middle log') := by
    intro hNone hCheckpoint
    have hEntry : op.write? = none := by cases op <;> first | rfl | cases hNone
    have hCommit : ∀ t env, op ≠ .commit t env := by rintro t env rfl; cases hNone
    have hRollback : ∀ t, op ≠ .rollback t := by rintro t rfl; cases hNone
    refine ⟨log, log, ?_, by simp [appended, hNone], Or.inl rfl⟩
    rw [(step_quiet hEntry hCommit hRollback hCheckpoint).1]
    exact h
  cases op with
  | put cf key value txnId =>
      obtain ⟨log', hLogs, hEntries⟩ := write_log h (.put cf key value txnId) rfl rfl
      exact ⟨log', log', hLogs, hEntries, Or.inl rfl⟩
  | delete cf key txnId =>
      obtain ⟨log', hLogs, hEntries⟩ := write_log h (.delete cf key txnId) rfl rfl
      exact ⟨log', log', hLogs, hEntries, Or.inl rfl⟩
  | commit txnId env => exact commit_log h txnId env
  | rollback txnId =>
      obtain ⟨log', hLogs, hEntries⟩ := rollback_log h txnId
      exact ⟨log', log', hLogs, hEntries, Or.inl rfl⟩
  | checkpoint writes =>
      obtain ⟨log', hLogs, hEffect⟩ := checkpoint_effect h writes
      refine ⟨log, log', ?_, by simp [appended, Op.record?], ?_⟩
      · rw [step, Prod.map_snd, id]
        exact hLogs
      · rcases hEffect with ⟨-, hSame⟩ | ⟨-, -, hSame | ⟨pos, hPos, hShort⟩⟩
        · exact Or.inl hSame
        · exact Or.inl hSame
        · exact Or.inr ⟨db, writes, pos, rfl, h, hPos, hShort⟩
  | _ => exact hQuiet rfl (by simp)

/-- A record in the log after a call was there before, is appended by the call or is a
checkpoint marker. -/
theorem step_records (h : db.wal.Logs codec maxFileSize log) (op : Op) :
    ∃ log', (db.step codec op).2.wal.Logs codec maxFileSize log' ∧ ∀ record ∈ log'.entries,
      record ∈ log.entries ∨ record ∈ db.appended codec op ∨ ∃ id, record.record = .checkpoint id := by
  obtain ⟨middle, log', hLogs', hMiddle, hShort⟩ := step_log h op
  refine ⟨log', hLogs', fun record hIn => ?_⟩
  have hFrom : record ∈ middle.entries →
      record ∈ log.entries ∨ record ∈ db.appended codec op ∨ ∃ id, record.record = .checkpoint id := by
    intro hIn
    rw [hMiddle] at hIn
    exact (List.mem_append.mp hIn).imp_right Or.inl
  rcases hShort with rfl | ⟨after, writes, pos, -, -, -, hEntries⟩
  · exact hFrom hIn
  · rw [hEntries] at hIn
    rcases List.mem_append.mp hIn with hIn | hIn
    · obtain ⟨segment, hs, hIn⟩ := List.mem_flatMap.mp hIn
      exact hFrom (List.mem_flatMap.mpr ⟨segment, (List.mem_filter.mp hs).1, hIn⟩)
    · rw [List.mem_singleton.mp hIn]
      exact Or.inr (Or.inr ⟨_, rfl⟩)

/-- A commit that returns Ok has its record in the log. -/
theorem appended_of_committed (h : db.wal.Logs codec maxFileSize log) {op : Op} {t : TxnId}
    (hNews : news (op, (db.step codec op).1) = .committed t) :
    ∃ env, op = .commit t env ∧ db.appended codec op = [⟨t, .commit t env.insertedAt⟩] := by
  obtain ⟨env, rfl, hActive, -⟩ := (db.step_mvcc codec op).commit_inv hNews
  refine ⟨env, rfl, appended_eq rfl hActive ?_⟩
  have hStep : db.step codec (.commit t env) =
      (db.commit codec env t).map (Reply.ofResult fun _ => .done) id := rfl
  rw [hStep] at hNews
  rcases db.commit_cases codec env t with ⟨-, hEq⟩ | ⟨e, wal, -, -, hEq⟩ |
    ⟨txn, conflict, wal, -, -, -, hEq⟩ | ⟨txn, wal, -, -, hAppend, -⟩
  · rw [hEq] at hNews
    cases hNews
  · rw [hEq] at hNews
    cases hNews
  · rw [hEq] at hNews
    cases hNews
  · rw [h.toInSession.appendDurable_eq] at hAppend
    rcases WalWriter.InSession.append_cases h.toInSession t (.commit t env.insertedAt) with
      ⟨hFits, -⟩ | ⟨-, e, hErr⟩
    · exact hFits
    · rw [hErr] at hAppend
      cases (Prod.mk.inj hAppend).1

section Sessions
variable {w : WalWriter}

theorem inSession_append (h : w.InSession maxFileSize) (txnId : TxnId) (record : WalRecord) :
    (w.append codec txnId record).2.InSession maxFileSize := by
  rcases WalWriter.InSession.append_cases h txnId record with ⟨-, hEq⟩ | ⟨-, e, hEq⟩
  · rw [hEq]
    exact h.append _
  · rw [hEq]
    exact h

theorem checkpoint_inSession (h : db.wal.InSession maxFileSize) (writes : Writes) :
    (db.checkpoint codec writes).2.wal.InSession maxFileSize := by
  have hSync : db.wal.flushAndSync codec = (.ok (), db.wal) := h.flushAndSync_eq codec
  unfold checkpoint flushNow
  dsimp only
  generalize db.store.flushL1ToL2 writes.patch = flushed
  obtain ⟨result, store⟩ := flushed
  cases result with
  | error e => exact h
  | ok groups =>
      dsimp only
      rw [hSync]
      dsimp only [checkpointState, writeCheckpoint]
      generalize db.checkpoints.write writes _ = written
      obtain ⟨result, checkpoints⟩ := written
      cases result with
      | error e => exact h
      | ok _ =>
          dsimp only [appendMarker]
          have hMarker := @inSession_append codec maxFileSize db.wal h db.mvcc.committedTxn
            (.checkpoint db.mvcc.committedTxn)
          rw [h.appendDurable_eq]
          generalize db.wal.append codec _ _ = appended at hMarker ⊢
          obtain ⟨result, wal⟩ := appended
          cases result with
          | error e => exact hMarker
          | ok _ =>
              have hQueue : wal.queue = [] := hMarker.queue
              dsimp only [truncateWal, WalWriter.truncateBefore]
              rw [if_neg (by simp [hQueue])]
              exact ⟨hMarker.config, hQueue⟩

/-- The writer of an engine stays as the open made it: `SyncEach`, nothing queued. -/
theorem step_inSession (h : db.wal.InSession maxFileSize) (op : Op) :
    (db.step codec op).2.wal.InSession maxFileSize := by
  have hWrite : ∀ cf key value txnId,
      (db.write codec cf key value txnId).2.wal.InSession maxFileSize := by
    intro cf key value txnId
    rcases db.write_cases codec cf key value txnId with ⟨-, hEq⟩ | ⟨-, hEq⟩
    · rw [hEq]
      exact h
    · rw [hEq]
      exact inSession_append h _ _
  have hQuiet : op.write? = none → (∀ t env, op ≠ .commit t env) → (∀ t, op ≠ .rollback t) →
      (∀ writes, op ≠ .checkpoint writes) → (db.step codec op).2.wal.InSession maxFileSize := by
    intro hEntry hCommit hRollback hCheckpoint
    rw [(step_quiet hEntry hCommit hRollback hCheckpoint).1]
    exact h
  cases op with
  | put cf key value txnId => exact hWrite cf key (some value) txnId
  | delete cf key txnId => exact hWrite cf key none txnId
  | commit txnId env =>
      have hAppend := @inSession_append codec maxFileSize db.wal h txnId (.commit txnId env.insertedAt)
      have hStep : (db.step codec (.commit txnId env)).2 = (db.commit codec env txnId).2 := by
        rw [step, Prod.map_snd, id]
      rw [hStep]
      rw [← h.appendDurable_eq] at hAppend
      rcases db.commit_cases codec env txnId with ⟨-, hEq⟩ | ⟨e, wal, -, hDurable, hEq⟩ |
        ⟨txn, conflict, wal, -, -, hDurable, hEq⟩ | ⟨txn, wal, -, -, -, hEq⟩
      · rw [hEq]
        exact h
      · rw [hEq]
        rwa [hDurable] at hAppend
      · rw [hEq]
        rwa [hDurable] at hAppend
      · rw [hEq]
        dsimp only
        rw [(maybeAutoMaintain_disk _ _).1]
        unfold maintainCheckpoint
        split
        · exact checkpoint_inSession hAppend env.writes
        · exact hAppend
  | rollback txnId =>
      have hAppend := @inSession_append codec maxFileSize db.wal h txnId .rollback
      have hStep : (db.step codec (.rollback txnId)).2 = (db.rollback codec txnId).2 := by
        rw [step, Prod.map_snd, id]
      rw [hStep]
      rcases db.rollback_cases codec txnId with ⟨-, hEq⟩ | ⟨e, wal, -, hWal, hEq⟩ | ⟨wal, -, hWal, hEq⟩
      · rw [hEq]
        exact h
      · rw [hEq]
        rwa [hWal] at hAppend
      · rw [hEq]
        rwa [hWal] at hAppend
  | checkpoint writes =>
      rw [step, Prod.map_snd, id]
      exact checkpoint_inSession h writes
  | _ => exact hQuiet rfl (by simp) (by simp) (by simp)

theorem inSession_of_open {env : OpenEnv} {config : Z1Config} {dir : DataDir}
    (h : openWithConfig codec maxFileSize env config dir = .ok db) :
    db.wal.InSession maxFileSize := by
  obtain ⟨recovery, l1, -, rfl⟩ := openWithConfig_cases h
  unfold WalWriter.openLatest
  split <;> exact ⟨rfl, rfl⟩

end Sessions
end Engine

/-- So in every life. -/
theorem life_inSession {codec : Codec} {maxFileSize : Nat} {env : OpenEnv} {config : Z1Config}
    {ops : List LifeOp} {db : Engine} (h : (life codec maxFileSize env config ops).2 = some db) :
    db.wal.InSession maxFileSize := by
  let invariant : List (LifeOp × LifeReply) → Option Engine → Prop :=
    fun _ state => ∀ db, state = some db → db.wal.InSession maxFileSize
  have hStep : ∀ past state op, invariant past state → True →
      invariant (past ++ [(op, (lifeStep codec maxFileSize state op).1)])
        (lifeStep codec maxFileSize state op).2 := by
    intro past state op hState _ after hAfter
    cases state with
    | none => cases hAfter
    | some db =>
        cases op with
        | call op =>
            obtain rfl := Option.some.inj hAfter
            exact Engine.step_inSession (hState db rfl) op
        | reopen kept env config =>
            dsimp only [lifeStep] at hAfter
            cases hOpen : Engine.openWithConfig codec maxFileSize env config
                ((db.close codec).cut kept) with
            | error e =>
                rw [hOpen] at hAfter
                cases hAfter
            | ok opened =>
                rw [hOpen] at hAfter
                obtain rfl := Option.some.inj hAfter
                exact Engine.inSession_of_open hOpen
  have hMeets : EachMeets (lifeStep codec maxFileSize) (fun _ _ _ => True) []
      (Engine.openWithConfig codec maxFileSize env config {}).toOption ops :=
    EachMeets.of_forall fun _ _ => trivial
  exact runs_invariant invariant (fun _ _ _ => True) hStep
    (fun opened hOpened => Engine.inSession_of_open (ok_of_toOption hOpened)) hMeets db h

end Z1Kv
