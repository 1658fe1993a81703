import Z1Kv.Txn.LogSteps
import Z1Kv.Wal.Faults

/-! Writes that are accepted and their records. The engine runs its store with
`SyncLevel::Async`, where the error of the append of a put is dropped: the put
succeeds, its version is in memory, and its record is not in the log. -/
namespace Z1Kv

namespace Engine
variable (codec : Codec)

/-- `put` and `delete` with the outcome of their append. -/
def writeIo (io : AppendIo) (db : Engine) (cf : UInt16) (key : Bytes) (value : Option Bytes)
    (txnId : TxnId) : Except Z1Error Unit × Engine :=
  match db.ensureActiveTxn txnId with
  | .error e => (.error e, db)
  | .ok () =>
      let db := { db with mvcc := db.mvcc.recordWrite txnId (conflictKey cf key) }
      let db := { db with wal := (db.wal.appendIo codec io txnId (.put cf key value)).2 }
      (.ok (), db.insertHot ⟨⟨cf, key⟩, txnId, value⟩)

def rollbackIo (io : AppendIo) (db : Engine) (txnId : TxnId) : Except Z1Error Unit × Engine :=
  match db.ensureActiveTxn txnId with
  | .error e => (.error e, db)
  | .ok () =>
      let db := { db with snapshotCache := db.snapshotCache.invalidate }
      match db.wal.appendIo codec io txnId .rollback with
      | (.error e, wal) => (.error e, { db with wal })
      | (.ok (), wal) =>
          (.ok (),
            { db with
              wal
              mvcc := db.mvcc.rollbackTxn txnId
              txnSnapshots := AList.erase txnId db.txnSnapshots })

def commitIo (io : AppendIo) (db : Engine) (env : CommitEnv) (txnId : TxnId) :
    Except Z1Error Unit × Engine :=
  match db.ensureActiveTxn txnId with
  | .error e => (.error e, db)
  | .ok () =>
      match db.wal.appendDurableIo codec io txnId (.commit txnId env.insertedAt) with
      | (.error e, wal) => (.error e, { db with wal })
      | (.ok (), wal) =>
          match applyCommit { db with wal } env txnId with
          | (.error e, db) => (.error e, db)
          | (.ok (), db) => (.ok (), (db.maybeAutoMaintain codec env.writes).2)

/-- A call, with the outcome of the append of its own record. -/
def stepIo (db : Engine) : Op × AppendIo → Reply × Engine
  | (.put cf key value txnId, io) =>
      (db.writeIo codec io cf key (some value) txnId).map (Reply.ofResult fun _ => .done) id
  | (.delete cf key txnId, io) =>
      (db.writeIo codec io cf key none txnId).map (Reply.ofResult fun _ => .done) id
  | (.commit txnId env, io) =>
      (db.commitIo codec io env txnId).map (Reply.ofResult fun _ => .done) id
  | (.rollback txnId, io) =>
      (db.rollbackIo codec io txnId).map (Reply.ofResult fun _ => .done) id
  | (op, _) => db.step codec op

section
variable {codec} {maxFileSize : Nat} {db : Engine} {io : AppendIo}

/-- A write by an active transaction is accepted whatever becomes of its record. -/
theorem writeIo_eq {cf : UInt16} {key : Bytes} {value : Option Bytes} {txnId : TxnId}
    (hActive : txnId ∈ db.mvcc.activeTxns) :
    db.writeIo codec io cf key value txnId =
      (.ok (),
        { (db.write codec cf key value txnId).2 with
          wal := (db.wal.appendIo codec io txnId (.put cf key value)).2 }) := by
  rcases db.write_cases codec cf key value txnId with ⟨hNot, -⟩ | ⟨-, hEq⟩
  · exact absurd hActive hNot
  · rcases db.ensureActiveTxn_cases txnId with ⟨-, hOk⟩ | ⟨hNot, -⟩
    · rw [hEq, writeIo, hOk]
      rfl
    · exact absurd hActive hNot

theorem writeIo_inactive {cf : UInt16} {key : Bytes} {value : Option Bytes} {txnId : TxnId}
    (hNot : txnId ∉ db.mvcc.activeTxns) :
    db.writeIo codec io cf key value txnId = (.error (.txnNotFound txnId), db) := by
  rcases db.ensureActiveTxn_cases txnId with ⟨hActive, -⟩ | ⟨-, hErr⟩
  · exact absurd hActive hNot
  · rw [writeIo, hErr]

theorem stepIo_write {op : Op} {e : Z1Entry} (hEntry : op.write? = some e) :
    db.stepIo codec (op, io) = (db.writeIo codec io e.key.cf e.key.key e.value e.txnId).map
        (Reply.ofResult fun _ => .done) id ∧
      db.step codec op = (db.write codec e.key.cf e.key.key e.value e.txnId).map
        (Reply.ofResult fun _ => .done) id := by
  cases op with
  | put cf key value txnId =>
      obtain rfl := Option.some.inj hEntry
      exact ⟨rfl, rfl⟩
  | delete cf key txnId =>
      obtain rfl := Option.some.inj hEntry
      exact ⟨rfl, rfl⟩
  | _ => cases hEntry

/-- A commit or rollback whose append fails: the transaction stays as it was, and
the log has the entries it had, or the record as well if only the sync failed. -/
def Stays (codec : Codec) (maxFileSize : Nat) (db : Engine) (log : SegmentLog) (record : WalEntry)
    (io : AppendIo) (outcome : Reply × Engine) : Prop :=
  (∃ err, outcome.1 = .failed err) ∧ outcome.2.mvcc = db.mvcc ∧
    outcome.2.txnCounter = db.txnCounter ∧
    (io.Whole → ∃ log', outcome.2.wal.Logs codec maxFileSize log' ∧
      (log'.entries = log.entries ∨ log'.entries = log.entries ++ [record]))

theorem commitIo_cases {log : SegmentLog} (h : db.wal.Logs codec maxFileSize log) (txnId : TxnId)
    (env : CommitEnv) :
    db.stepIo codec (.commit txnId env, io) = db.step codec (.commit txnId env) ∨
      db.Stays codec maxFileSize log ⟨txnId, .commit txnId env.insertedAt⟩ io
        (db.stepIo codec (.commit txnId env, io)) := by
  have hEnabled : db.wal.config.enabled = true := by rw [h.config]; rfl
  have hSame : db.wal.appendDurableIo codec io txnId (.commit txnId env.insertedAt) =
      db.wal.appendDurable codec txnId (.commit txnId env.insertedAt) →
      db.stepIo codec (.commit txnId env, io) = db.step codec (.commit txnId env) := by
    intro hEq
    unfold stepIo step commitIo commit
    dsimp only
    generalize db.wal.appendDurableIo codec io txnId (.commit txnId env.insertedAt) = appended at hEq ⊢
    subst hEq
    generalize db.wal.appendDurable codec txnId (.commit txnId env.insertedAt) = appended
    generalize db.ensureActiveTxn txnId = active
    rfl
  have hFailed : ∀ e wal, txnId ∈ db.mvcc.activeTxns →
      db.wal.appendDurableIo codec io txnId (.commit txnId env.insertedAt) = (.error e, wal) →
      db.stepIo codec (.commit txnId env, io) = (.failed e, { db with wal }) := by
    intro e wal hActive hEq
    rcases db.ensureActiveTxn_cases txnId with ⟨-, hOk⟩ | ⟨hNot, -⟩
    · rw [stepIo, commitIo, hOk, hEq]
      rfl
    · exact absurd hActive hNot
  rcases db.ensureActiveTxn_cases txnId with ⟨hActive, -⟩ | ⟨-, hErr⟩
  · by_cases hWrites : codec.Fits ⟨txnId, .commit txnId env.insertedAt⟩ →
        io.Writes db.wal (codec.frame ⟨txnId, .commit txnId env.insertedAt⟩).length
    · have hAppend := h.toInSession.appendIo_eq hWrites
      have hDurable := @WalWriter.InSession.appendDurable_eq codec maxFileSize db.wal h.toInSession
        txnId (.commit txnId env.insertedAt)
      rcases h.append txnId (.commit txnId env.insertedAt) with
        ⟨wal, log', hEq, hLogs, hGrows⟩ | ⟨-, e, hEq⟩
      · by_cases hSynced : io.synced = true
        · refine Or.inl (hSame ?_)
          rw [hDurable, hEq, WalWriter.appendDurableIo, if_neg (by simp [hEnabled]), hAppend, hEq]
          exact if_pos hSynced
        · refine Or.inr ?_
          rw [hFailed (.io .other) wal hActive ?_]
          · exact ⟨⟨_, rfl⟩, rfl, rfl, fun _ => ⟨log', hLogs, Or.inr hGrows.entries⟩⟩
          · rw [WalWriter.appendDurableIo, if_neg (by simp [hEnabled]), hAppend, hEq]
            exact if_neg hSynced
      · refine Or.inl (hSame ?_)
        rw [hDurable, hEq, WalWriter.appendDurableIo, if_neg (by simp [hEnabled]), hAppend, hEq]
    · rw [Classical.not_imp] at hWrites
      obtain ⟨wal, hEq, hWhole⟩ := h.appendIo_failed hWrites.1 hWrites.2
      refine Or.inr ?_
      rw [hFailed (.io .other) wal hActive ?_]
      · refine ⟨⟨_, rfl⟩, rfl, rfl, fun hIo => ?_⟩
        obtain ⟨log', hLogs, hEntries⟩ := hWhole hIo
        exact ⟨log', hLogs, Or.inl hEntries⟩
      · rw [WalWriter.appendDurableIo, if_neg (by simp [hEnabled]), hEq]
  · refine Or.inl ?_
    rw [stepIo, step, commitIo, commit, hErr]

theorem rollbackIo_cases {log : SegmentLog} (h : db.wal.Logs codec maxFileSize log) (txnId : TxnId) :
    db.stepIo codec (.rollback txnId, io) = db.step codec (.rollback txnId) ∨
      db.Stays codec maxFileSize log ⟨txnId, .rollback⟩ io
        (db.stepIo codec (.rollback txnId, io)) := by
  rcases db.ensureActiveTxn_cases txnId with ⟨-, hOk⟩ | ⟨-, hErr⟩
  · by_cases hWrites : codec.Fits ⟨txnId, .rollback⟩ →
        io.Writes db.wal (codec.frame ⟨txnId, .rollback⟩).length
    · have hAppend := h.toInSession.appendIo_eq hWrites
      refine Or.inl ?_
      unfold stepIo step rollbackIo rollback
      dsimp only
      generalize db.wal.appendIo codec io txnId .rollback = appended at hAppend ⊢
      subst hAppend
      generalize db.wal.append codec txnId .rollback = appended
      generalize db.ensureActiveTxn txnId = active
      rfl
    · rw [Classical.not_imp] at hWrites
      obtain ⟨wal, hEq, hWhole⟩ := h.appendIo_failed hWrites.1 hWrites.2
      refine Or.inr ?_
      rw [stepIo, rollbackIo, hOk]
      dsimp only
      rw [hEq]
      refine ⟨⟨_, rfl⟩, rfl, rfl, fun hIo => ?_⟩
      obtain ⟨log', hLogs, hEntries⟩ := hWhole hIo
      exact ⟨log', hLogs, Or.inl hEntries⟩
  · refine Or.inl ?_
    rw [stepIo, step, rollbackIo, rollback, hErr]

/-- What a call with I/O outcomes can do beyond what it does when all of them are
good: accept a write without its record, or fail to end a transaction. -/
theorem stepIo_cases {log : SegmentLog} (h : db.wal.Logs codec maxFileSize log) (op : Op) :
    db.stepIo codec (op, io) = db.step codec op ∨
      (∃ e, op.write? = some e ∧ e.txnId ∈ db.mvcc.activeTxns ∧ codec.Fits e.logged ∧
        ¬ io.Writes db.wal (codec.frame e.logged).length ∧
        db.stepIo codec (op, io) =
          (.done, { (db.step codec op).2 with
            wal := (db.wal.appendIo codec io e.txnId e.logged.record).2 })) ∨
      ∃ record, op.record? = some record ∧ op.write? = none ∧
        db.Stays codec maxFileSize log record io (db.stepIo codec (op, io)) := by
  cases hEntry : op.write? with
  | some e =>
      obtain ⟨hIo, hStep⟩ := @stepIo_write codec db io op e hEntry
      by_cases hActive : e.txnId ∈ db.mvcc.activeTxns
      · rw [writeIo_eq hActive] at hIo
        by_cases hWrites : codec.Fits e.logged → io.Writes db.wal (codec.frame e.logged).length
        · refine Or.inl ?_
          rw [hIo, hStep, h.toInSession.appendIo_eq hWrites]
          rcases db.write_cases codec e.key.cf e.key.key e.value e.txnId with ⟨hNot, -⟩ | ⟨-, hEq⟩
          · exact absurd hActive hNot
          · rw [hEq]
        · rw [Classical.not_imp] at hWrites
          refine Or.inr (Or.inl ⟨e, rfl, hActive, hWrites.1, hWrites.2, ?_⟩)
          rw [hIo, hStep]
          rfl
      · refine Or.inl ?_
        rw [hIo, hStep, writeIo_inactive hActive]
        rcases db.write_cases codec e.key.cf e.key.key e.value e.txnId with ⟨-, hEq⟩ | ⟨hIn, -⟩
        · rw [hEq]
        · exact absurd hIn hActive
  | none =>
      cases op with
      | commit txnId env =>
          exact (commitIo_cases h txnId env).imp_right fun hStays => Or.inr ⟨_, rfl, rfl, hStays⟩
      | rollback txnId =>
          exact (rollbackIo_cases h txnId).imp_right fun hStays => Or.inr ⟨_, rfl, rfl, hStays⟩
      | put cf key value txnId => cases hEntry
      | delete cf key txnId => cases hEntry
      | _ => exact Or.inl rfl

end
end Engine

/-- The Put record of this write, and after it the Commit record of its transaction. -/
def LoggedBefore (entries : List WalEntry) (w : Z1Entry) : Prop :=
  ∃ insertedAt, [w.logged, ⟨w.txnId, .commit w.txnId insertedAt⟩].Sublist entries

/-- The accepted writes of a transaction are in the log, and before its Commit
record once it has committed. -/
structure Recorded (t : TxnId) (j : List News) (entries : List WalEntry) : Prop where
  puts : ∀ w, .wrote w ∈ j → w.txnId = t → w.logged ∈ entries
  commit : .committed t ∈ j → ∀ w, .wrote w ∈ j → w.txnId = t → LoggedBefore entries w

theorem Recorded.step {t : TxnId} {j : List News} {entries added : List WalEntry} {n : News}
    (h : Recorded t j entries)
    (hWrote : ∀ e, n = .wrote e → e.txnId = t → .committed t ∉ j ∧ e.logged ∈ added)
    (hCommitted : n = .committed t → ∃ insertedAt, added = [⟨t, .commit t insertedAt⟩]) :
    Recorded t (j ++ [n]) (entries ++ added) := by
  constructor
  · intro w hw hTxn
    rcases mem_concat_wrote hw with hw | hw
    · exact List.mem_append_left _ (h.puts w hw hTxn)
    · exact List.mem_append_right _ (hWrote w hw hTxn).2
  · intro hIn w hw hTxn
    rcases List.mem_append.mp hIn with hIn | hIn
    · rcases mem_concat_wrote hw with hw | hw
      · obtain ⟨insertedAt, hSub⟩ := h.commit hIn w hw hTxn
        exact ⟨insertedAt, hSub.trans (List.sublist_append_left _ _)⟩
      · exact absurd hIn (hWrote w hw hTxn).1
    · have hNews := (List.mem_singleton.mp hIn).symm
      obtain ⟨insertedAt, rfl⟩ := hCommitted hNews
      have hw := (mem_concat_wrote hw).resolve_right (by simp [hNews])
      refine ⟨insertedAt, ?_⟩
      rw [hTxn]
      exact (List.singleton_sublist.mpr (h.puts w hw hTxn)).append (List.Sublist.refl _)

/-- Records of other transactions may be deleted. -/
theorem Recorded.truncate {t : TxnId} {j : List News} {entries deleted kept added : List WalEntry}
    (h : Recorded t j entries) (hSplit : entries = deleted ++ kept)
    (hSpared : ∀ op ∈ deleted, op.txnId = t → op.record = .rollback ∨ ∃ id, op.record = .checkpoint id) :
    Recorded t j (kept ++ added) := by
  have hPut : ∀ w : Z1Entry, w.txnId = t → w.logged ∉ deleted := by
    intro w hTxn hIn
    rcases hSpared _ hIn hTxn with hRecord | ⟨id, hRecord⟩
    · cases hRecord
    · cases hRecord
  constructor
  · intro w hw hTxn
    have hIn := h.puts w hw hTxn
    rw [hSplit] at hIn
    exact List.mem_append_left _ ((List.mem_append.mp hIn).resolve_left (hPut w hTxn))
  · intro hIn w hw hTxn
    obtain ⟨insertedAt, hSub⟩ := h.commit hIn w hw hTxn
    refine ⟨insertedAt, List.Sublist.trans ?_ (List.sublist_append_left kept added)⟩
    rw [hSplit, List.sublist_append_iff] at hSub
    obtain ⟨front, back, hEq, hFront, hBack⟩ := hSub
    cases front with
    | nil => rwa [hEq, List.nil_append]
    | cons first rest =>
        rw [List.cons_append] at hEq
        obtain rfl := (List.cons.inj hEq).1
        exact absurd (hFront.subset (by simp)) (hPut w hTxn)

/-- The calls and replies of a run with I/O outcomes. -/
def calls (events : List ((Op × AppendIo) × Reply)) : List (Op × Reply) :=
  events.map fun event => (event.1.1, event.2)

/-- A call after which the accepted writes of a transaction are in the log: the
append of a write of its own succeeds, a write that fails leaves nothing in the file,
and no segment with a Put or Commit record of it is deleted. -/
structure Logging (codec : Codec) (t : TxnId) (db : Engine) (call : Op × AppendIo) : Prop where
  own : ∀ e, call.1.write? = some e → e.txnId = t →
    codec.Fits e.logged ∧ call.2.Writes db.wal (codec.frame e.logged).length
  whole : call.2.Whole
  spared : ∀ after writes pos, db.checkpointing? codec call.1 = some (after, writes) →
    after.truncation? codec writes = some pos → ∀ op, after.wal.dir.Below codec pos op →
      op.txnId = t → op.record = .rollback ∨ ∃ id, op.record = .checkpoint id

structure Accepts (codec : Codec) (maxFileSize : Nat) (base t : TxnId) (j : List News) (db : Engine) :
    Prop where
  ledger : Ledger base j db.mvcc db.txnCounter
  logs : ∃ log, db.wal.Logs codec maxFileSize log ∧ Recorded t j log.entries

section
variable {codec : Codec} {maxFileSize : Nat} {base t : TxnId} {past : List (Op × Reply)} {db : Engine}
  {op : Op} {io : AppendIo}

/-- A call with good outcomes. -/
theorem Accepts.step_good (h : Accepts codec maxFileSize base t (journal past) db)
    (hLogging : Logging codec t db (op, io)) :
    Accepts codec maxFileSize base t (journal past ++ [news (op, (db.step codec op).1)])
      (db.step codec op).2 := by
  obtain ⟨log, hLogs, hRecorded⟩ := h.logs
  have hStep := (db.step_mvcc codec op).journalStep
  obtain ⟨middle, log', hLogs', hMiddle, hEffect⟩ := Engine.step_log hLogs op
  have hGrown : Recorded t (journal past ++ [news (op, (db.step codec op).1)]) middle.entries := by
    rw [hMiddle]
    refine hRecorded.step ?_ ?_
    · rintro e hNews rfl
      rw [hNews] at hStep
      have hEntry := entry_of_news hNews
      refine ⟨fun hDone => (h.ledger.committed _ hDone).1 hStep.writer, ?_⟩
      rw [Engine.appended_eq (Op.record?_of_entry hEntry) hStep.writer
        (hLogging.own e hEntry rfl).1]
      simp
    · intro hNews
      obtain ⟨env, -, hAppended⟩ := Engine.appended_of_committed hLogs hNews
      exact ⟨env.insertedAt, hAppended⟩
  refine ⟨h.ledger.step_call codec op, log', hLogs', ?_⟩
  rcases hEffect with rfl | ⟨after, writes, pos, hPoint, hAfter, hPos, hEntries⟩
  · exact hGrown
  · rw [hEntries]
    have hSplit : middle.entries = (middle.before pos).entries ++ (middle.since pos).entries := by
      rw [← SegmentLog.entries_append, SegmentLog.before_append_since hAfter.wellFormed]
    exact hGrown.truncate hSplit fun op hOp =>
      hLogging.spared after writes pos hPoint hPos op (hAfter.recordBelow hOp)

/-- An append that fails without leaving bytes behind. -/
theorem Accepts.step_failed (hLedger : Ledger base (journal past) db.mvcc db.txnCounter)
    {log : SegmentLog} (hRecorded : Recorded t (journal past) log.entries) {record : WalEntry}
    (hIo : io.Whole) (hStays : db.Stays codec maxFileSize log record io (db.stepIo codec (op, io))) :
    Accepts codec maxFileSize base t
      (journal past ++ [news (op, (db.stepIo codec (op, io)).1)]) (db.stepIo codec (op, io)).2 := by
  obtain ⟨⟨err, hReply⟩, hMvcc, hCounter, hWal⟩ := hStays
  obtain ⟨log', hLogs', hEntries⟩ := hWal hIo
  have hNews : news (op, (db.stepIo codec (op, io)).1) = .other := by
    rw [hReply]
    cases op <;> rfl
  rw [hNews]
  refine ⟨?_, log', hLogs', ?_⟩
  · rw [hMvcc, hCounter]
    exact hLedger.step (.other rfl fun u txn hLookup => ⟨txn, hLookup, .refl txn⟩)
      (VisibilityManager.Advances.refl db.mvcc) le_rfl (by simp)
  · rcases hEntries with hEntries | hEntries
    · have hSame := @Recorded.step t _ _ [] .other hRecorded (by simp) (by simp)
      rwa [List.append_nil, ← hEntries] at hSame
    · rw [hEntries]
      exact hRecorded.step (by simp) (by simp)

/-- A write of another transaction, accepted without its record. -/
theorem Accepts.step_unlogged (h : Accepts codec maxFileSize base t (journal past) db) {e : Z1Entry}
    (hEntry : op.write? = some e) (hActive : e.txnId ∈ db.mvcc.activeTxns) (hOther : e.txnId ≠ t)
    (hFits : codec.Fits e.logged) (hFails : ¬ io.Writes db.wal (codec.frame e.logged).length)
    (hIo : io.Whole) :
    Accepts codec maxFileSize base t (journal past ++ [.wrote e])
      { (db.step codec op).2 with
        wal := (db.wal.appendIo codec io e.txnId e.logged.record).2 } := by
  obtain ⟨log, hLogs, hRecorded⟩ := h.logs
  obtain ⟨w', hEq, hWhole⟩ := hLogs.appendIo_failed hFits hFails
  obtain ⟨log', hLogs', hEntries⟩ := hWhole hIo
  have hLedger := h.ledger.step_call codec op
  rw [news_step codec hEntry hActive] at hLedger
  refine ⟨hLedger, log', ?_, ?_⟩
  · dsimp only
    rw [show db.wal.appendIo codec io e.txnId e.logged.record = (.error (.io .other), w') from hEq]
    exact hLogs'
  · have hSame := @Recorded.step t _ _ [] (.wrote e) hRecorded
      (fun w hw hTxn => absurd ((News.wrote.inj hw) ▸ hTxn) hOther) (by simp)
    rwa [List.append_nil, ← hEntries] at hSame

theorem Accepts.step (h : Accepts codec maxFileSize base t (journal past) db)
    (hLogging : Logging codec t db (op, io)) :
    Accepts codec maxFileSize base t
      (journal past ++ [news (op, (db.stepIo codec (op, io)).1)]) (db.stepIo codec (op, io)).2 := by
  obtain ⟨log, hLogs, hRecorded⟩ := h.logs
  rcases @Engine.stepIo_cases codec maxFileSize db io log hLogs op with
    hEq | ⟨e, hEntry, hActive, hFits, hFails, hEq⟩ | ⟨record, -, -, hStays⟩
  · rw [hEq]
    exact h.step_good hLogging
  · rw [hEq, news_write hEntry]
    refine h.step_unlogged hEntry hActive (fun hTxn => ?_) hFits hFails hLogging.whole
    exact hFails (hLogging.own e hEntry hTxn).2
  · exact .step_failed h.ledger hRecorded hLogging.whole hStays

/-- A put or delete makes good on its record exactly when the transaction is not
active, so that it fails beforehand, or the append succeeds. -/
theorem Engine.accepts_iff {db : Engine} (h : db.wal.InSession maxFileSize) {e : Z1Entry}
    (hEntry : op.write? = some e) :
    ((db.wal.appendIo codec io e.txnId e.logged.record).1 ≠ .ok () →
        (∃ err, (db.stepIo codec (op, io)).1 = .failed err) ∧
          (db.stepIo codec (op, io)).2.store.l1 = db.store.l1) ↔
      e.txnId ∉ db.mvcc.activeTxns ∨
        codec.Fits e.logged ∧ io.Writes db.wal (codec.frame e.logged).length := by
  have hAppend : (db.wal.appendIo codec io e.txnId e.logged.record).1 = .ok () ↔
      codec.Fits e.logged ∧ io.Writes db.wal (codec.frame e.logged).length := h.appendIo_ok
  obtain ⟨hIo, -⟩ := @Engine.stepIo_write codec db io op e hEntry
  rw [← hAppend]
  by_cases hActive : e.txnId ∈ db.mvcc.activeTxns
  · rw [Engine.writeIo_eq hActive] at hIo
    rw [hIo]
    constructor
    · intro hErr
      refine Or.inr ?_
      by_contra hNot
      obtain ⟨⟨err, hFailed⟩, -⟩ := hErr hNot
      cases hFailed
    · exact fun hOk hNot => absurd (hOk.resolve_left (not_not_intro hActive)) hNot
  · rw [Engine.writeIo_inactive hActive] at hIo
    rw [hIo]
    exact iff_of_true (fun _ => ⟨⟨_, rfl⟩, rfl⟩) (Or.inl hActive)

end

/-- A failed append of a put goes unnoticed; where no append of a transaction's writes
fails, what it wrote and committed is in the log, before its Commit record. -/
theorem accepted_writes_are_logged {codec : Codec} {maxFileSize : Nat} {env : OpenEnv}
    {config : Z1Config} {dir : DataDir} {db : Engine}
    (hOpen : Engine.openWithConfig codec maxFileSize env config dir = .ok db)
    (hLogs : ∃ log, db.wal.Logs codec maxFileSize log) :
    (∀ (db : Engine), db.wal.InSession maxFileSize → ∀ op io e, op.write? = some e →
      (((db.wal.appendIo codec io e.txnId e.logged.record).1 ≠ .ok () →
          (∃ err, (db.stepIo codec (op, io)).1 = .failed err) ∧
            (db.stepIo codec (op, io)).2.store.l1 = db.store.l1) ↔
        e.txnId ∉ db.mvcc.activeTxns ∨
          codec.Fits e.logged ∧ io.Writes db.wal (codec.frame e.logged).length)) ∧
    ∀ ops w, EachMeets (Engine.stepIo codec) (fun _ db call => Logging codec w.txnId db call) [] db ops →
      .wrote w ∈ journal (calls (runs (Engine.stepIo codec) db ops).1) →
      .committed w.txnId ∈ journal (calls (runs (Engine.stepIo codec) db ops).1) →
        ∃ entries, replayAll codec (runs (Engine.stepIo codec) db ops).2.wal.dir = .ok entries ∧
          LoggedBefore entries w := by
  refine ⟨fun db h op io e hEntry => Engine.accepts_iff h hEntry, fun ops w hMeets hWrote hCommitted => ?_⟩
  have hStart : Accepts codec maxFileSize db.mvcc.committedTxn w.txnId (journal (calls [])) db := by
    obtain ⟨log, hLogs⟩ := hLogs
    exact ⟨.of_open hOpen, log, hLogs, by simp [calls, journal], by simp [calls, journal]⟩
  have hEnd : Accepts codec maxFileSize db.mvcc.committedTxn w.txnId
      (journal (calls (runs (Engine.stepIo codec) db ops).1)) (runs (Engine.stepIo codec) db ops).2 := by
    have hRun := runs_invariant (fun past db' => Accepts codec maxFileSize db.mvcc.committedTxn w.txnId
      (journal (calls past)) db') (fun _ db call => Logging codec w.txnId db call) ?_ hStart hMeets
    · simpa using hRun
    · rintro past db' ⟨op, io⟩ hAccepts hLogging
      have hNext := hAccepts.step hLogging
      rw [← journal_concat] at hNext
      simpa [calls] using hNext
  obtain ⟨log, hLogs, hRecorded⟩ := hEnd.logs
  exact ⟨log.entries, hLogs.replay, hRecorded.commit hCommitted w hWrote rfl⟩

/-- One transaction commits a write, the append of another one's write fails. -/
def oneFailedAppend : List (Op × AppendIo) :=
  [(.begin, {}), (.begin, {}), (.put 0 [107] [1] 1, {}), (.put 0 [108] [2] 2, { failsAfter := some 0 }),
    (.commit 1 ⟨0, 0, 0, .listed, .succeed⟩, {})]

theorem committed_write_is_logged :
    ∃ db, Engine.openWithConfig Postcard.codec engineSegmentSize (.listed 0) {} {} = .ok db ∧
      ∃ entries, replayAll Postcard.codec
          (runs (Engine.stepIo Postcard.codec) db oneFailedAppend).2.wal.dir = .ok entries ∧
        LoggedBefore entries ⟨⟨0, [107]⟩, 1, some [1]⟩ := by
  have hRun : (Engine.openWithConfig Postcard.codec engineSegmentSize (.listed 0) {} {}).toOption.map
      (fun db => (journal (calls (runs (Engine.stepIo Postcard.codec) db oneFailedAppend).1),
        ((runs (Engine.stepIo Postcard.codec) db (oneFailedAppend.take 4)).2.checkpointing?
          Postcard.codec (.commit 1 ⟨0, 0, 0, .listed, .succeed⟩)).isNone)) =
      some ([.began 1, .began 2, .wrote ⟨⟨0, [107]⟩, 1, some [1]⟩, .wrote ⟨⟨0, [108]⟩, 2, some [2]⟩,
        .committed 1], true) := by decide +kernel
  obtain ⟨db, hDb, hState⟩ := Option.map_eq_some_iff.mp hRun
  obtain ⟨hJournal, hNone⟩ := Prod.mk.inj hState
  have hOpen := ok_of_toOption hDb
  have hQuiet : ∀ (db : Engine) op, op.write? = none → db.checkpointing? Postcard.codec op = none →
      Logging Postcard.codec 1 db (op, {}) := fun db op hEntry hPoint =>
    ⟨by simp [hEntry], by simp [AppendIo.Whole], by simp [hPoint]⟩
  have hMeets : EachMeets (Engine.stepIo Postcard.codec) (fun _ db call => Logging Postcard.codec 1 db call)
      [] db oneFailedAppend := by
    refine .of_take fun i call hi => ?_
    match i, hi with
    | 0, hi =>
        obtain rfl := Option.some.inj hi
        exact hQuiet _ _ rfl rfl
    | 1, hi =>
        obtain rfl := Option.some.inj hi
        exact hQuiet _ _ rfl rfl
    | 2, hi =>
        obtain rfl := Option.some.inj hi
        refine ⟨fun e he _ => ?_, by simp [AppendIo.Whole], by simp [Engine.checkpointing?]⟩
        obtain rfl := Option.some.inj he
        exact ⟨by decide, fun _ => rfl, rfl⟩
    | 3, hi =>
        obtain rfl := Option.some.inj hi
        refine ⟨fun e he hTxn => ?_, by simp [AppendIo.Whole], by simp [Engine.checkpointing?]⟩
        obtain rfl := Option.some.inj he
        cases hTxn
    | 4, hi =>
        obtain rfl := Option.some.inj hi
        exact hQuiet _ _ rfl (Option.isNone_iff_eq_none.mp hNone)
  obtain ⟨log, hLogs, -⟩ := (Kept.of_open hOpen).1.books
  refine ⟨db, hOpen, (accepted_writes_are_logged hOpen ⟨log, hLogs⟩).2 oneFailedAppend
    ⟨⟨0, [107]⟩, 1, some [1]⟩ hMeets ?_ ?_⟩
  · rw [hJournal]
    simp
  · rw [hJournal]
    simp

/-- The write of the record fails, for lack of space say, then the transaction
commits. -/
def failedAppend : List (Op × AppendIo) :=
  [(.begin, {}), (.put 0 [107] [1] 1, { failsAfter := some 0 }),
    (.commit 1 ⟨0, 0, 0, .listed, .succeed⟩, {})]

/-- Put and commit return Ok, and the log has the Commit record alone. -/
theorem accepted_write_is_not_logged :
    ¬ ∀ ops db w, Engine.openWithConfig Postcard.codec engineSegmentSize (.listed 0) {} {} = .ok db →
      .wrote w ∈ journal (calls (runs (Engine.stepIo Postcard.codec) db ops).1) →
      .committed w.txnId ∈ journal (calls (runs (Engine.stepIo Postcard.codec) db ops).1) →
        ∃ entries, replayAll Postcard.codec (runs (Engine.stepIo Postcard.codec) db ops).2.wal.dir =
          .ok entries ∧ LoggedBefore entries w := by
  intro h
  have hRun : (Engine.openWithConfig Postcard.codec engineSegmentSize (.listed 0) {} {}).toOption.bind
      (fun db => (replayAll Postcard.codec
        (runs (Engine.stepIo Postcard.codec) db failedAppend).2.wal.dir).toOption.map fun entries =>
          (journal (calls (runs (Engine.stepIo Postcard.codec) db failedAppend).1), entries)) =
      some ([.began 1, .wrote ⟨⟨0, [107]⟩, 1, some [1]⟩, .committed 1], [⟨1, .commit 1 0⟩]) := by
    decide +kernel
  obtain ⟨db, hDb, hRest⟩ := Option.bind_eq_some_iff.mp hRun
  obtain ⟨entries, hEntries, hState⟩ := Option.map_eq_some_iff.mp hRest
  obtain ⟨hJournal, rfl⟩ := Prod.mk.inj hState
  obtain ⟨entries, hReplay, insertedAt, hSub⟩ := h failedAppend db ⟨⟨0, [107]⟩, 1, some [1]⟩
    (ok_of_toOption hDb) (by rw [hJournal]; simp) (by rw [hJournal]; simp)
  obtain rfl := Except.ok.inj ((ok_of_toOption hEntries).symm.trans hReplay)
  have hLength := hSub.length_le
  simp at hLength

end Z1Kv
