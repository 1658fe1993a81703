import Mathlib.Data.List.Infix
import Z1Kv.Txn.LogSteps
import Z1Kv.Txn.TornLog

/-! Writes that were never committed, over all sessions of a data directory. A read
sees a version by the id of its transaction alone, so an uncommitted version stays
hidden as long as its id is neither committed on the quiet nor given out again. -/
namespace Z1Kv

/-- The calls of the session that runs at the end of the events. -/
def session (events : List (LifeOp × LifeReply)) : List (Op × Reply) :=
  events.foldl (fun calls event =>
    match event with
    | (.call op, .replied reply) => calls ++ [(op, reply)]
    | (.reopen _ _ _, _) => []
    | _ => calls) []

@[simp] theorem session_call (events : List (LifeOp × LifeReply)) (op : Op) (reply : Reply) :
    session (events ++ [(.call op, .replied reply)]) = session events ++ [(op, reply)] := by
  simp [session]

@[simp] theorem session_reopen (events : List (LifeOp × LifeReply)) (kept : Option Nat)
    (env : OpenEnv) (config : Z1Config) (reply : LifeReply) :
    session (events ++ [(.reopen kept env config, reply)]) = [] := by
  simp [session]

/-- A write whose transaction committed, in the session of the write. -/
def CommittedWrite (events : List (LifeOp × LifeReply)) (e : Z1Entry) : Prop :=
  ∃ before, before <+: events ∧ .wrote e ∈ journal (session before) ∧
    .committed e.txnId ∈ journal (session before)

theorem CommittedWrite.mono {events later : List (LifeOp × LifeReply)} {e : Z1Entry}
    (h : CommittedWrite events e) (hLater : events <+: later) : CommittedWrite later e := by
  obtain ⟨before, hBefore, hWrote, hCommitted⟩ := h
  exact ⟨before, hBefore.trans hLater, hWrote, hCommitted⟩

/-- An event that reads this value at this key. -/
def ReadsValue (key : Z1Key) (value : Bytes) : LifeOp × LifeReply → Prop
  | (.call (.get cf k), .replied (.value found)) => key = ⟨cf, k⟩ ∧ found = some value
  | (.call (.getForTxn cf k _), .replied (.value found)) => key = ⟨cf, k⟩ ∧ found = some value
  | (.call (.scan cf _ _), .replied (.rows found)) => key.cf = cf ∧ (key.key, value) ∈ found
  | _ => False

/-- Every value read was written by a transaction that had committed by then. -/
def ReadsCommitted (events : List (LifeOp × LifeReply)) : Prop :=
  ∀ before event after, events = before ++ event :: after →
    ∀ key value, ReadsValue key value event →
      ∃ e, CommittedWrite before e ∧ e.key = key ∧ e.value = some value

/-- What replay reads in the log of a directory. -/
def DataDir.readLog (codec : Codec) (maxFileSize : Nat) (dir : DataDir) :
    Except Z1Error (List WalEntry) :=
  replayAll codec (WalWriter.openLatest dir.wal (sessionConfig maxFileSize)).dir

/-- The log a session found, its records and those that the session appended. -/
structure LogTrace where
  found : WalDir := []
  records : List WalEntry := []

/-- Every version on disk, committed or not. -/
def DataDir.persisted (dir : DataDir) (entries : List WalEntry) : List Z1Entry :=
  dir.l2.flatMap Patch.versions ++ dir.l3.flatMap Patch.versions ++
    entries.filterMap WalEntry.version?

/-- The highest committed id that an open knows of. -/
def DataDir.lastCommitted (dir : DataDir) (entries : List WalEntry) : TxnId :=
  max (dir.checkpoints.recoveryBaseline.getD (0, [])).1 (replayScan entries).maxSeenCommitted

def WalEntry.IsMarker (op : WalEntry) : Prop := ∃ id, op.record = .checkpoint id

/-- A commit of a writer overlaps no active transaction, so the check behind its
durable record passes. -/
def Engine.CommitsApart (db : Engine) (op : Op) : Prop :=
  ∀ t env txn, op = .commit t env → AList.lookup t db.mvcc.activeTxns = some txn →
    txn.writtenKeys ≠ [] → ∀ u other, u ≠ t → AList.lookup u db.mvcc.activeTxns = some other →
      ¬ VisibilityManager.Overlaps txn other

/-- A directory in which every version on disk is labelled with an id up to the
highest committed one. -/
def DataDir.Labelled (dir : DataDir) (entries : List WalEntry) : Prop :=
  ∀ e ∈ dir.persisted entries, e.txnId ≤ dir.lastCommitted entries

/-- Ids that a read or the next open may take for committed. -/
def Engine.Decided (db : Engine) (records : List WalEntry) (t : TxnId) : Prop :=
  t ∈ db.mvcc.committedHistory ∨
    (∃ u snap, AList.lookup u db.txnSnapshots = some snap ∧ snap.sees t = true) ∨
    t ∈ db.checkpoints.history ∨ HasCommit records t

/-- What holds in a session: what is held or logged is old or was written in it, and an
id is decided if the open knew it, if it committed, or if nothing was written under it. -/
structure Traced (codec : Codec) (maxFileSize : Nat) (base : TxnId) (known : TxnId → Prop)
    (old : Z1Entry → Prop) (calls : List (Op × Reply)) (db : Engine) (records : List WalEntry) :
    Prop where
  sound : db.Sound
  inSession : db.wal.InSession maxFileSize
  ledger : Ledger base (journal calls) db.mvcc db.txnCounter
  stored : Written old (journal calls) db
  logged : ∀ e : Z1Entry, e.logged ∈ records → old e ∨ .wrote e ∈ journal calls
  decided : ∀ t, db.Decided records t → known t ∨ .committed t ∈ journal calls ∨
    (.began t ∈ journal calls ∧ t ∉ db.mvcc.activeTxns ∧ writesOf (journal calls) t = [])

namespace Engine
variable {codec : Codec} {maxFileSize : Nat} {db : Engine}

/-- A checkpoint keeps the recovery baseline or makes the committed history the new one. -/
theorem checkpoint_history (codec : Codec) (db : Engine) (writes : Writes) {t : TxnId}
    (ht : t ∈ (db.checkpoint codec writes).2.checkpoints.history) :
    t ∈ db.checkpoints.history ∨ t ∈ db.mvcc.committedHistory := by
  have hWritten : ∀ u, u ∈ (db.checkpoints.write writes db.checkpointState).2.history →
      u ∈ db.checkpoints.history ∨ u ∈ db.mvcc.committedHistory := by
    intro u hu
    rcases db.checkpoints.write_history writes db.checkpointState with ⟨-, hSame⟩ | ⟨-, hNew⟩
    · rw [hSame] at hu
      exact .inl hu
    · rw [hNew] at hu
      exact .inr (VisibilityManager.mem_committedHistoryEntries.mp hu)
  unfold checkpoint flushNow at ht
  dsimp only at ht
  generalize db.store.flushL1ToL2 writes.patch = flushed at ht
  obtain ⟨result, store⟩ := flushed
  cases result with
  | error e => exact .inl ht
  | ok groups =>
      dsimp only at ht
      generalize db.wal.flushAndSync codec = synced at ht
      obtain ⟨result, wal⟩ := synced
      cases result with
      | error e => exact .inl ht
      | ok _ =>
          dsimp only [checkpointState, writeCheckpoint] at ht hWritten
          generalize db.checkpoints.write writes _ = written at ht hWritten
          obtain ⟨result, checkpoints⟩ := written
          cases result with
          | error e => exact hWritten t ht
          | ok _ =>
              dsimp only [appendMarker] at ht
              generalize wal.appendDurable codec _ _ = appended at ht
              obtain ⟨result, wal⟩ := appended
              cases result with
              | error e => exact hWritten t ht
              | ok _ => exact hWritten t ht

/-- So does every call. -/
theorem step_history (codec : Codec) (db : Engine) (op : Op) {t : TxnId}
    (ht : t ∈ (db.step codec op).2.checkpoints.history) :
    t ∈ db.checkpoints.history ∨ t ∈ (db.step codec op).2.mvcc.committedHistory := by
  have hWrite : ∀ cf key value txnId,
      (db.write codec cf key value txnId).2.checkpoints = db.checkpoints := by
    intro cf key value txnId
    rcases db.write_cases codec cf key value txnId with ⟨-, hEq⟩ | ⟨-, hEq⟩
    · rw [hEq]
    · rw [hEq]
  cases op with
  | put cf key value txnId =>
      rw [step, Prod.map_snd, id, put, hWrite] at ht
      exact .inl ht
  | delete cf key txnId =>
      rw [step, Prod.map_snd, id, delete, hWrite] at ht
      exact .inl ht
  | commit txnId env =>
      rw [step, Prod.map_snd, id] at ht ⊢
      rcases db.commit_cases codec env txnId with
        ⟨-, hEq⟩ | ⟨e, wal, -, -, hEq⟩ | ⟨txn, conflict, wal, -, -, -, hEq⟩ | ⟨txn, wal, -, -, -, hEq⟩
      · rw [hEq] at ht
        exact .inl ht
      · rw [hEq] at ht
        exact .inl ht
      · rw [hEq] at ht
        exact .inl ht
      · have hMvcc := ((db.committing codec env txnId).maybeAutoMaintain_spec codec env.writes).1.mvcc
        rw [hEq] at ht ⊢
        dsimp only at ht ⊢
        rw [(maybeAutoMaintain_disk _ _).2, maintainCheckpoint] at ht
        rw [hMvcc]
        split at ht
        · exact checkpoint_history codec _ _ ht
        · exact .inl ht
  | rollback txnId =>
      rw [step, Prod.map_snd, id] at ht
      rcases db.rollback_cases codec txnId with ⟨-, hEq⟩ | ⟨e, wal, -, -, hEq⟩ | ⟨wal, -, -, hEq⟩
      · rw [hEq] at ht
        exact .inl ht
      · rw [hEq] at ht
        exact .inl ht
      · rw [hEq] at ht
        exact .inl ht
  | checkpoint writes =>
      have hMvcc := (db.checkpoint_spec codec writes).1.mvcc
      rw [step, Prod.map_snd, id] at ht ⊢
      rw [hMvcc]
      exact db.checkpoint_history codec writes ht
  | _ =>
      rw [(step_quiet rfl (by simp) (by simp) (by simp)).2] at ht
      exact .inl ht

/-- The history grows by commits only. -/
theorem committedHistory_step (codec : Codec) (db : Engine) (op : Op) {t : TxnId}
    (ht : t ∈ (db.step codec op).2.mvcc.committedHistory) :
    t ∈ db.mvcc.committedHistory ∨ news (op, (db.step codec op).1) = .committed t := by
  have hEffect := db.step_mvcc codec op
  by_cases hCommit : ∃ u, news (op, (db.step codec op).1) = .committed u
  · obtain ⟨u, hNews⟩ := hCommit
    obtain ⟨env, -, -, hMvcc⟩ := hEffect.commit_inv hNews
    rw [hMvcc] at ht
    rcases VisibilityManager.mem_committed ht with rfl | hOld
    · exact .inr hNews
    · exact .inl hOld
  · rw [hEffect.journalStep.history fun u hNews => hCommit ⟨u, hNews⟩] at ht
    exact .inl ht

end Engine

namespace Traced
variable {codec : Codec} {maxFileSize : Nat} {base : TxnId} {known : TxnId → Prop}
  {old : Z1Entry → Prop} {calls : List (Op × Reply)} {db : Engine} {records : List WalEntry}
  (h : Traced codec maxFileSize base known old calls db records)
include h

/-- An id that is decided stays accounted for. -/
theorem decided_step (op : Op) {t : TxnId} (ht : db.Decided records t) :
    known t ∨ .committed t ∈ journal calls ++ [news (op, (db.step codec op).1)] ∨
      (.began t ∈ journal calls ++ [news (op, (db.step codec op).1)] ∧
        t ∉ (db.step codec op).2.mvcc.activeTxns ∧
        writesOf (journal calls ++ [news (op, (db.step codec op).1)]) t = []) := by
  have hStep := (db.step_mvcc codec op).journalStep
  rcases h.decided t ht with hKnown | hCommitted | ⟨hBegan, hEnded, hNone⟩
  · exact .inl hKnown
  · exact .inr (.inl (List.mem_append_left _ hCommitted))
  · refine .inr (.inr ⟨List.mem_append_left _ hBegan, fun hActive => ?_, ?_⟩)
    · rcases hStep.active hActive with hActive | ⟨-, hAbove⟩
      · exact hEnded hActive
      · exact absurd (h.ledger.began t hBegan).2 (Nat.not_lt.mpr hAbove)
    · by_contra hNe
      obtain ⟨e, hWrote, rfl⟩ := writesOf_ne_nil.mp hNe
      rcases mem_concat_wrote hWrote with hWrote | hNews
      · exact writesOf_ne_nil.mpr ⟨e, hWrote, rfl⟩ hNone
      · rw [hNews] at hStep
        exact hEnded hStep.writer

/-- A Commit record is appended for a transaction that commits, or for one without
writes that the check refuses. -/
theorem commit_appended {op : Op} (hApart : db.CommitsApart op) {t : TxnId}
    (ht : HasCommit (db.appended codec op) t) :
    news (op, (db.step codec op).1) = .committed t ∨
      (.began t ∈ journal calls ∧ t ∉ (db.step codec op).2.mvcc.activeTxns ∧
        writesOf (journal calls ++ [news (op, (db.step codec op).1)]) t = []) := by
  obtain ⟨commitTs, insertedAt, hIn⟩ := ht
  rw [Engine.appended, Option.mem_toList, Option.filter_eq_some_iff] at hIn
  obtain ⟨hRecord, hFits⟩ := hIn
  have hActive : t ∈ db.mvcc.activeTxns ∧ codec.Fits ⟨t, .commit commitTs insertedAt⟩ := by
    simpa using hFits
  obtain ⟨env, rfl, rfl, rfl⟩ :
      ∃ env, op = .commit t env ∧ commitTs = t ∧ insertedAt = env.insertedAt := by
    cases op <;> cases hRecord
    exact ⟨_, rfl, rfl, rfl⟩
  rw [Engine.step, Prod.map_fst, Prod.map_snd, id]
  rcases db.commit_cases codec env commitTs with
    ⟨hNot, -⟩ | ⟨e, wal, -, hErr, -⟩ | ⟨txn, conflict, wal, hLookup, hSsi, -, hEq⟩ | ⟨txn, wal, -, -, -, hEq⟩
  · exact absurd hActive.1 hNot
  · rw [h.inSession.appendDurable_eq] at hErr
    rcases WalWriter.InSession.append_cases h.inSession commitTs (.commit commitTs env.insertedAt) with
      ⟨-, hOk⟩ | ⟨hNot, -⟩
    · rw [hOk] at hErr
      cases (Prod.mk.inj hErr).1
    · exact absurd hActive.2 hNot
  · have hNone := h.ledger.writesOf_refused hLookup hSsi (hApart commitTs env txn rfl hLookup)
    rw [hEq]
    refine .inr ⟨h.ledger.active_mem hActive.1, by simp, ?_⟩
    simpa [writesOf_concat, Reply.ofResult, news] using hNone
  · rw [hEq]
    exact .inl rfl

/-- One call: only a commit decides an id. -/
theorem step {op : Op} (hApart : db.CommitsApart op) :
    Traced codec maxFileSize base known old (calls ++ [(op, (db.step codec op).1)])
      (db.step codec op).2 (records ++ db.appended codec op) := by
  have hSound := @Engine.Sound.step codec db h.sound op
  have hHistory : ∀ t ∈ (db.step codec op).2.mvcc.committedHistory,
      db.Decided records t ∨ news (op, (db.step codec op).1) = .committed t :=
    fun t ht => (db.committedHistory_step codec op ht).imp_left .inl
  have hGrown : ∀ t, (db.step codec op).2.Decided (records ++ db.appended codec op) t →
      db.Decided records t ∨ news (op, (db.step codec op).1) = .committed t ∨
        HasCommit (db.appended codec op) t := by
    rintro t (ht | ⟨u, snap, hPinned, hSees⟩ | ht | ht)
    · exact (hHistory t ht).imp_right .inl
    · obtain ⟨-, hSame | ⟨txnId, -, hErased⟩ | ⟨txnId, -, -, hInserted⟩⟩ :=
        @Engine.step_snapshots codec db h.sound op
      · rw [hSame] at hPinned
        exact .inl (.inr (.inl ⟨u, snap, hPinned, hSees⟩))
      · rw [hErased] at hPinned
        by_cases hTxn : u = txnId
        · subst hTxn
          simp at hPinned
        · rw [AList.lookup_erase_ne hTxn] at hPinned
          exact .inl (.inr (.inl ⟨u, snap, hPinned, hSees⟩))
      · rw [hInserted] at hPinned
        by_cases hTxn : u = txnId
        · subst hTxn
          rw [AList.lookup_insert] at hPinned
          obtain rfl := Option.some.inj hPinned
          exact (hHistory t ((hSound.coherent.snapshot_sees t).mp hSees)).imp_right .inl
        · rw [AList.lookup_insert_ne hTxn] at hPinned
          exact .inl (.inr (.inl ⟨u, snap, hPinned, hSees⟩))
    · rcases db.step_history codec op ht with ht | ht
      · exact .inl (.inr (.inr (.inl ht)))
      · exact (hHistory t ht).imp_right .inl
    · rcases hasCommit_append.mp ht with ht | ht
      · exact .inl (.inr (.inr (.inr ht)))
      · exact .inr (.inr ht)
  refine ⟨hSound, Engine.step_inSession h.inSession op, ?_, ?_, fun e he => ?_, fun t ht => ?_⟩
  · rw [journal_concat]
    exact h.ledger.step_call codec op
  · rw [journal_concat]
    exact h.stored.step codec op
  · rw [journal_concat]
    rcases List.mem_append.mp he with he | he
    · exact (h.logged e he).imp_right (List.mem_append_left _)
    · rw [Engine.appended, Option.mem_toList, Option.filter_eq_some_iff] at he
      obtain ⟨hRecord, hFits⟩ := he
      have hActive : e.logged.txnId ∈ db.mvcc.activeTxns ∧ codec.Fits e.logged := by
        simpa using hFits
      exact .inr (by simp [news_step codec (Op.entry_of_record? hRecord) hActive.1])
  · rw [journal_concat]
    rcases hGrown t ht with hDecided | hNews | hAppended
    · exact h.decided_step op hDecided
    · exact .inr (.inl (by simp [hNews]))
    · rcases h.commit_appended hApart hAppended with hNews | ⟨hBegan, hEnded, hNone⟩
      · exact .inr (.inl (by simp [hNews]))
      · exact .inr (.inr ⟨List.mem_append_left _ hBegan, hEnded, hNone⟩)

/-- A version under a decided id is old and was known, or its transaction committed. -/
theorem source (hKnown : ∀ t, known t → t ≤ base) (hOld : ∀ e, old e → e.txnId ≤ base) {e : Z1Entry}
    (he : old e ∨ .wrote e ∈ journal calls) (ht : db.Decided records e.txnId) :
    old e ∧ known e.txnId ∨ .wrote e ∈ journal calls ∧ .committed e.txnId ∈ journal calls := by
  have hBegan : .began e.txnId ∈ journal calls → ¬ e.txnId ≤ base :=
    fun hBegan => Nat.not_le.mpr (h.ledger.began _ hBegan).1
  rcases he with he | he
  · rcases h.decided _ ht with hIn | hCommitted | ⟨hIn, -⟩
    · exact .inl ⟨he, hIn⟩
    · exact absurd (hOld e he) (hBegan (h.ledger.committed _ hCommitted).2.began)
    · exact absurd (hOld e he) (hBegan hIn)
  · rcases h.decided _ ht with hIn | hCommitted | ⟨-, -, hNone⟩
    · exact absurd (hKnown _ hIn) (hBegan (h.ledger.writers e he))
    · exact .inr ⟨he, hCommitted⟩
    · exact absurd hNone (writesOf_ne_nil.mpr ⟨e, he, rfl⟩)

/-- What a call reads is held under a decided id. -/
theorem reads {op : Op} {key : Z1Key} {value : Bytes}
    (hReads : ReadsValue key value (.call op, .replied (db.step codec op).1)) :
    ∃ e ∈ db.store.held, e.key = key ∧ e.value = some value ∧ db.Decided records e.txnId := by
  cases op with
  | get cf k =>
      rw [Engine.step, Prod.map_fst] at hReads
      generalize hGet : (db.get cf k).1 = found at hReads
      obtain ⟨rfl, rfl⟩ := hReads
      rw [Engine.get_eq] at hGet
      obtain ⟨e, he, hKey, hValue, hSees⟩ := Store.getAt_source hGet
      exact ⟨e, he, hKey, hValue, .inl ((h.sound.snapshot_sees _).mp hSees)⟩
  | scan cf start endKey =>
      rw [Engine.step, Prod.map_fst] at hReads
      generalize hScan : (db.scan cf start endKey).1 = rows at hReads
      obtain ⟨rfl, hRow⟩ := hReads
      rw [← hScan, Engine.scan_eq] at hRow
      obtain ⟨e, he, hKey, hValue, hSees⟩ := Store.scanAt_source hRow
      exact ⟨e, he, hKey, hValue, .inl ((h.sound.snapshot_sees _).mp hSees)⟩
  | getForTxn cf k txnId =>
      rw [Engine.step, Prod.map_fst, Engine.getForTxn] at hReads
      cases hPinned : AList.lookup txnId db.txnSnapshots with
      | none =>
          rw [hPinned] at hReads
          exact hReads.elim
      | some snap =>
          rw [hPinned] at hReads
          obtain ⟨rfl, hGet⟩ := hReads
          obtain ⟨e, he, hKey, hValue, hSees⟩ := Store.getAt_source hGet
          exact ⟨e, he, hKey, hValue, .inr (.inl ⟨txnId, snap, hPinned, hSees⟩)⟩
  | _ => exact hReads.elim

end Traced

section Opening
variable {codec : Codec} {maxFileSize : Nat} {env : OpenEnv} {config : Z1Config} {dir : DataDir}
  {entries : List WalEntry} {db : Engine}

/-- Ids that an open takes for committed from a directory. -/
def DataDir.Knows (dir : DataDir) (entries : List WalEntry) (t : TxnId) : Prop :=
  t ∈ dir.checkpoints.history ∨ HasCommit entries t

theorem Engine.lastCommitted_le (hOpen : openWithConfig codec maxFileSize env config dir = .ok db)
    (hRead : dir.readLog codec maxFileSize = .ok entries) :
    dir.lastCommitted entries ≤ db.mvcc.committedTxn := by
  obtain ⟨recovery, txns, hReplayed, -, -, hMax, -⟩ := replayCommittedOps_readable hRead
    config.strictMode (MemStore.new (64 * 1024 * 1024))
  obtain ⟨recovery', l1, hReplay, rfl⟩ := openWithConfig_cases hOpen
  rw [hReplayed] at hReplay
  obtain ⟨rfl, -⟩ := Prod.mk.inj (Except.ok.inj hReplay)
  rw [DataDir.lastCommitted, ← hMax]
  exact (VisibilityManager.recoverCommittedHistory_spec
    ((VisibilityManager.newWithConfig config.visibility).setCommittedTxn _) _ _ _).2.1

theorem DataDir.Knows.le {t : TxnId} (h : dir.Knows entries t)
    (hOpen : Engine.openWithConfig codec maxFileSize env config dir = .ok db)
    (hRead : dir.readLog codec maxFileSize = .ok entries) (hOpened : db.Opened dir entries) :
    t ≤ db.mvcc.committedTxn := by
  rcases h with h | h
  · exact hOpened.sound.coherent.below t ((hOpened.history t).mpr (.inl h))
  · exact h.le_maxSeen.trans ((le_max_right _ _).trans (Engine.lastCommitted_le hOpen hRead))

/-- An open on a directory: all it holds is old, all it takes for committed is known. -/
theorem Traced.of_open (hOpen : Engine.openWithConfig codec maxFileSize env config dir = .ok db)
    (hOpened : db.Opened dir entries) :
    Traced codec maxFileSize db.mvcc.committedTxn (dir.Knows entries) (· ∈ dir.persisted entries) []
      db entries := by
  refine ⟨hOpened.sound, Engine.inSession_of_open hOpen, .of_open hOpen, fun e he => .inl ?_,
    fun e he => .inl ?_, fun t ht => .inl ?_⟩
  · simp only [DataDir.persisted, List.mem_append]
    rcases Store.mem_held_iff.mp (Engine.stored_of_open hOpen he) with he | he
    · obtain ⟨-, op, hOp, hVersion⟩ := hOpened.hot e he
      exact .inr (List.mem_filterMap.mpr ⟨op, (mem_livePuts hOp).1, hVersion⟩)
    · exact .inl (((hOpened.beyond e).mp he).imp (hOpened.l2 e).mp (hOpened.l3 e).mp)
  · simp only [DataDir.persisted, List.mem_append]
    exact .inr (List.mem_filterMap.mpr ⟨e.logged, he, rfl⟩)
  · rcases ht with ht | ⟨u, snap, hPinned, -⟩ | ht | ht
    · exact ((hOpened.history t).mp ht).imp_right And.left
    · obtain ⟨recovery, l1, -, rfl⟩ := Engine.openWithConfig_cases hOpen
      simp at hPinned
    · obtain ⟨recovery, l1, -, rfl⟩ := Engine.openWithConfig_cases hOpen
      exact .inl ht
    · exact .inr ht

end Opening

/-- The log of a session on an empty directory holds what the session appended. -/
def LogsRecords (codec : Codec) (maxFileSize : Nat) (db : Engine) (records : List WalEntry) : Prop :=
  ∃ log, db.wal.Logs codec maxFileSize log ∧ ∀ op ∈ log.entries, op ∈ records ∨ op.IsMarker

section Logging
variable {codec : Codec} {maxFileSize : Nat} {db : Engine} {records : List WalEntry}

theorem LogsRecords.of_open {env : OpenEnv} {config : Z1Config} {dir : DataDir}
    (h : Engine.openWithConfig codec maxFileSize env config dir = .ok db) (hWal : dir.wal = []) :
    LogsRecords codec maxFileSize db records := by
  obtain ⟨recovery, l1, -, rfl⟩ := Engine.openWithConfig_cases h
  rw [hWal]
  obtain ⟨hAligned, hQueue, hConfig⟩ := WalWriter.openLatest_nil codec (sessionConfig maxFileSize)
  exact ⟨_, ⟨hAligned.toAtEnd, ⟨hConfig, hQueue⟩, by simp⟩, by simp⟩

theorem LogsRecords.step (h : LogsRecords codec maxFileSize db records) (op : Op) :
    LogsRecords codec maxFileSize (db.step codec op).2 (records ++ db.appended codec op) := by
  obtain ⟨log, hLogs, hRecords⟩ := h
  obtain ⟨log', hLogs', hFrom⟩ := Engine.step_records hLogs op
  refine ⟨log', hLogs', fun r hr => ?_⟩
  rcases hFrom r hr with hOld | hNew | hMarker
  · exact (hRecords r hOld).imp_left (List.mem_append_left _)
  · exact .inl (List.mem_append_right _ hNew)
  · exact .inr hMarker

/-- Dropped or cut, it is read back without anything else. -/
theorem LogsRecords.reopened (h : LogsRecords codec maxFileSize db records) {kept : Option Nat}
    {entries : List WalEntry}
    (hRead : ((db.close codec).cut kept).readLog codec maxFileSize = .ok entries) :
    ∀ op ∈ entries, op ∈ records ∨ op.IsMarker := by
  obtain ⟨log, hLogs, hRecords⟩ := h
  obtain ⟨read, hReplay, hInitial⟩ := hLogs.cut kept (sessionConfig maxFileSize)
  obtain rfl := Except.ok.inj (hReplay.symm.trans hRead)
  exact fun op hOp => hRecords op (hInitial.subset hOp)

end Logging

/-- What a session leaves on disk it held or had in its log. -/
theorem Engine.persisted_close {codec : Codec} {db : Engine} {kept : Option Nat}
    {entries : List WalEntry} {e : Z1Entry}
    (he : e ∈ ((db.close codec).cut kept).persisted entries) :
    e ∈ db.store.stored ∨ e.logged ∈ entries := by
  simp only [DataDir.persisted, List.mem_append] at he
  rcases he with (he | he) | he
  · exact .inl (@Engine.stored_of_close db codec e (.inl he))
  · exact .inl (@Engine.stored_of_close db codec e (.inr he))
  · obtain ⟨op, hOp, hVersion⟩ := List.mem_filterMap.mp he
    obtain rfl := version?_eq_some.mp hVersion
    exact .inr hOp

theorem ReadsCommitted.concat {events : List (LifeOp × LifeReply)} {event : LifeOp × LifeReply}
    (h : ReadsCommitted events)
    (hEvent : ∀ key value, ReadsValue key value event →
      ∃ e, CommittedWrite events e ∧ e.key = key ∧ e.value = some value) :
    ReadsCommitted (events ++ [event]) := by
  intro before read after hSplit
  rcases concat_eq_split_iff.mp hSplit with ⟨rfl, rfl, -⟩ | ⟨rest, rfl, rfl⟩
  · exact hEvent
  · exact h before read rest rfl

/-- The books of a life: each version in the layers or in the log is below the ids
that the session gives out or was written in it, and committed if it is decided. -/
def Accounted (codec : Codec) (maxFileSize : Nat) (past : List (LifeOp × LifeReply)) (db : Engine)
    (trace : LogTrace) : Prop :=
  ∃ (base : TxnId) (known : TxnId → Prop) (old : Z1Entry → Prop), (∀ t, known t → t ≤ base) ∧
    (∀ e, old e → e.txnId ≤ base) ∧ (∀ e, old e → known e.txnId → CommittedWrite past e) ∧
    Traced codec maxFileSize base known old (session past) db trace.records ∧
    (trace.found = [] → LogsRecords codec maxFileSize db trace.records)

section Lives
variable {codec : Codec} {maxFileSize : Nat} {past : List (LifeOp × LifeReply)} {db : Engine}
  {trace : LogTrace}

theorem Accounted.committedWrite (h : Accounted codec maxFileSize past db trace) {e : Z1Entry}
    (he : e ∈ db.store.stored ∨ e.logged ∈ trace.records) (ht : db.Decided trace.records e.txnId) :
    CommittedWrite past e := by
  obtain ⟨base, known, old, hKnown, hOld, hCommitted, hTraced, -⟩ := h
  rcases hTraced.source hKnown hOld (he.elim (hTraced.stored e) (hTraced.logged e)) ht with
    ⟨hIn, hDecided⟩ | ⟨hWrote, hDecided⟩
  · exact hCommitted e hIn hDecided
  · exact ⟨past, List.prefix_rfl, hWrote, hDecided⟩

theorem Accounted.call (h : Accounted codec maxFileSize past db trace) {op : Op}
    (hApart : db.CommitsApart op) :
    Accounted codec maxFileSize (past ++ [(.call op, .replied (db.step codec op).1)])
      (db.step codec op).2 { trace with records := trace.records ++ db.appended codec op } := by
  obtain ⟨base, known, old, hKnown, hOld, hCommitted, hTraced, hLogs⟩ := h
  refine ⟨base, known, old, hKnown, hOld, fun e he ht => ?_, ?_, fun hFound => ?_⟩
  · exact (hCommitted e he ht).mono (List.prefix_append _ _)
  · rw [session_call]
    exact hTraced.step hApart
  · exact (hLogs hFound).step op

/-- A reopen on a directory whose labels are settled. -/
theorem Accounted.reopen (h : Accounted codec maxFileSize past db trace) {kept : Option Nat}
    {env : OpenEnv} {config : Z1Config} {db' : Engine} {entries : List WalEntry}
    (hOpen : Engine.openWithConfig codec maxFileSize env config ((db.close codec).cut kept) = .ok db')
    (hRead : ((db.close codec).cut kept).readLog codec maxFileSize = .ok entries)
    (hRecords : trace.found ≠ [] → ∀ op ∈ entries, op ∈ trace.records ∨ op.IsMarker)
    (hLabelled : ((db.close codec).cut kept).Labelled entries) :
    Accounted codec maxFileSize (past ++ [(.reopen kept env config, .opened)]) db'
      ⟨((db.close codec).cut kept).wal, entries⟩ := by
  have hIn : ∀ op ∈ entries, op ∈ trace.records ∨ op.IsMarker := by
    by_cases hFound : trace.found = []
    · obtain ⟨-, -, -, -, -, -, -, hLogs⟩ := h
      exact (hLogs hFound).reopened hRead
    · exact hRecords hFound
  obtain ⟨db₁, hOpen₁, hOpened⟩ := @open_readable codec maxFileSize env config _ entries hRead
  obtain rfl := Except.ok.inj (hOpen.symm.trans hOpen₁)
  refine ⟨db'.mvcc.committedTxn, ((db.close codec).cut kept).Knows entries,
    fun e => e ∈ ((db.close codec).cut kept).persisted entries,
    fun t ht => ht.le hOpen hRead hOpened, fun e he => ?_, fun e he ht => ?_, ?_,
    fun hFound => ?_⟩
  · exact (hLabelled e he).trans (Engine.lastCommitted_le hOpen hRead)
  · have hStored : e ∈ db.store.stored ∨ e.logged ∈ trace.records := by
      refine (Engine.persisted_close he).imp_right fun he => (hIn _ he).resolve_right ?_
      rintro ⟨id, hId⟩
      cases hId
    have hDecided : db.Decided trace.records e.txnId := by
      rcases ht with ht | ⟨commitTs, insertedAt, ht⟩
      · exact .inr (.inr (.inl ht))
      · refine .inr (.inr (.inr ⟨commitTs, insertedAt, (hIn _ ht).resolve_right ?_⟩))
        rintro ⟨id, hId⟩
        cases hId
    exact (h.committedWrite hStored hDecided).mono (List.prefix_append _ _)
  · rw [session_reopen]
    exact .of_open hOpen hOpened
  · exact .of_open hOpen hFound

end Lives

end Z1Kv
