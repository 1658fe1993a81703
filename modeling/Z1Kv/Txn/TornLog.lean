import Z1Kv.Txn.Fallback

/-! One session on an empty directory, a cut of its last segment at any byte, and an
open. The records that end before the cut are a prefix of what was written, and
reads are those of the transactions that committed in it. -/
namespace Z1Kv

section
variable (codec : Codec)

/-- What the calls of a session write; the writer refuses a record over the limit. -/
def written (calls : List WalCall) : List WalEntry :=
  (calls.map WalCall.entry).filter (codec.Fits ·)

/-- The records of a log that lie entirely before a cut of its last segment. -/
def SegmentLog.beforeCut (log : SegmentLog) (kept : Nat) : List WalEntry :=
  SegmentLog.entries log.dropLast ++
    (log.getLast?.map fun last => wholeRecords codec kept last.entries).getD []

end

def WalRecord.ends : WalRecord → Bool
  | .commit _ _ => true
  | .rollback => true
  | _ => false

/-- The Put records of a transaction precede its Commit or Rollback record, of which
there is at most one. -/
def EndsOnce (entries : List WalEntry) : Prop :=
  entries.Pairwise fun last op => last.record.ends = true → op.txnId = last.txnId →
    op.record.ends = false ∧ op.record.isPut = false

instance (entries : List WalEntry) : Decidable (EndsOnce entries) :=
  inferInstanceAs (Decidable (List.Pairwise _ _))

def WalEntry.PutsAt (t : TxnId) (cf : UInt16) (key : Bytes) (op : WalEntry) : Prop :=
  ∃ value, op = ⟨t, .put cf key value⟩

/-- The last value put at a key by the highest-numbered of its writers whose Commit
record is among the kept ones. -/
def CommittedValue (entries kept : List WalEntry) (cf : UInt16) (key : Bytes) (found : Option Bytes) :
    Prop :=
  (∃ t, IsGreatest {t | HasCommit kept t ∧ ∃ op ∈ entries, op.PutsAt t cf key} t ∧
      LastOf (WalEntry.PutsAt t cf key) entries ⟨t, .put cf key found⟩) ∨
    (∀ t, HasCommit kept t → ∀ op ∈ entries, ¬ op.PutsAt t cf key) ∧ found = none

section Cutting
variable {codec : Codec}

/-- Cutting the last segment of a log leaves a log of the records before the cut. -/
theorem SegmentLog.cutLast_dir {log : SegmentLog} (h : log.WellFormed codec)
    (hWhole : ∀ segment ∈ log, segment.torn = []) (kept : Nat) :
    ∃ cut : SegmentLog, (log.dir codec).cutLast (some kept) = cut.dir codec ∧ cut.WellFormed codec ∧
      cut.Clean ∧ cut.entries = log.beforeCut codec kept := by
  rcases List.eq_nil_or_concat' log with rfl | ⟨front, last, rfl⟩
  · exact ⟨[], rfl, h, by simp [Clean], rfl⟩
  · have hLast : last.bytes codec = codec.frames last.entries := by
      simp [Segment.bytes, hWhole last (by simp)]
    obtain ⟨torn, hTake, hTorn⟩ := take_frames (h.segments last (by simp)).1 kept
    have hAscending := List.pairwise_append.mp h.ascending
    refine ⟨front ++ [⟨last.seq, wholeRecords codec kept last.entries, torn⟩], ?_, ⟨?_, ?_⟩, ?_, ?_⟩
    · have hBytes : Segment.bytes codec ⟨last.seq, wholeRecords codec kept last.entries, torn⟩ =
          (last.bytes codec).take kept := by rw [hLast, hTake, Segment.bytes]
      simp [WalDir.cutLast, SegmentLog.dir, hBytes]
    · refine List.pairwise_append.mpr ⟨hAscending.1, by simp, fun s hs t ht => ?_⟩
      obtain rfl := List.mem_singleton.mp ht
      exact hAscending.2.2 s hs last (by simp)
    · intro s hs
      rcases List.mem_append.mp hs with hs | hs
      · exact h.segments s (by simp [hs])
      · obtain rfl := List.mem_singleton.mp hs
        exact ⟨fun e he => (h.segments last (by simp)).1 e ((wholeRecords_initial kept _).subset he), hTorn⟩
    · intro s hs
      rw [List.dropLast_concat] at hs
      exact hWhole s (by simp [hs])
    · simp [beforeCut]

/-- An open after the cut reads the records before it. -/
theorem SegmentLog.replayAll_cut {log : SegmentLog} (h : log.WellFormed codec)
    (hWhole : ∀ segment ∈ log, segment.torn = []) (kept : Nat) (config : WalConfig) :
    replayAll codec (WalWriter.openLatest ((log.dir codec).cutLast (some kept)) config).dir =
      .ok (log.beforeCut codec kept) := by
  obtain ⟨cut, hCut, hCutFormed, hClean, hBefore⟩ := cutLast_dir h hWhole kept
  rw [hCut, ← hBefore]
  rcases List.eq_nil_or_concat' cut with rfl | ⟨front, last, rfl⟩
  · change replayAll codec (WalWriter.openLatest [] config).dir = .ok []
    rw [(WalWriter.openLatest_nil codec config).1.dir]
    exact replayAll_clean (WalWriter.openLatest_nil codec config).1.wellFormed (by simp [Clean])
  · rw [(WalWriter.openLatest_holds hCutFormed config).1.dir]
    exact replayAll_clean hCutFormed hClean

theorem SegmentLog.beforeCut_initial (log : SegmentLog) (kept : Nat) :
    log.beforeCut codec kept <+: log.entries := by
  rcases List.eq_nil_or_concat' log with rfl | ⟨front, last, rfl⟩
  · exact List.nil_prefix
  · obtain ⟨lost, hLost⟩ := @wholeRecords_initial codec kept last.entries
    refine ⟨lost, ?_⟩
    simp only [beforeCut, List.dropLast_concat, List.getLast?_concat, Option.map_some, Option.getD_some,
      SegmentLog.entries_append, SegmentLog.entries_cons, SegmentLog.entries_nil, List.append_nil]
    rw [List.append_assoc, hLost]

/-- Dropped or cut, a clean log reads as an initial part of its records. -/
theorem WalWriter.Logs.cut {maxFileSize : Nat} {w : WalWriter} {log : SegmentLog}
    (h : w.Logs codec maxFileSize log) (kept : Option Nat) (config : WalConfig) :
    ∃ entries, replayAll codec (WalWriter.openLatest ((w.close codec).cutLast kept) config).dir =
      .ok entries ∧ entries <+: log.entries := by
  cases kept with
  | none => exact ⟨log.entries, h.reopened config, List.prefix_rfl⟩
  | some kept =>
      rw [h.close]
      exact ⟨_, SegmentLog.replayAll_cut h.wellFormed h.whole kept config, log.beforeCut_initial kept⟩

theorem WalWriter.InSession.calls_filter {maxFileSize : Nat} {w : WalWriter}
    (h : w.InSession maxFileSize) (calls : List WalCall) :
    calls.foldl (WalWriter.call codec) w =
      (calls.filter (codec.Fits ·.entry)).foldl (WalWriter.call codec) w := by
  induction calls generalizing w with
  | nil => rfl
  | cons call rest ih =>
      by_cases hFits : codec.Fits call.entry
      · rw [List.filter_cons_of_pos (by simpa using hFits), List.foldl_cons, List.foldl_cons,
          h.call hFits]
        exact ih (h.append _)
      · rw [List.filter_cons_of_neg (by simpa using hFits), List.foldl_cons, h.call_refused hFits]
        exact ih h

/-- What a session on an empty directory leaves: a log of what it wrote. -/
theorem runSession_log (codec : Codec) (maxFileSize : Nat) (calls : List WalCall) :
    ∃ log : SegmentLog, runSession codec maxFileSize [] calls = log.dir codec ∧
      log.WellFormed codec ∧ (∀ segment ∈ log, segment.torn = []) ∧
      log.entries = written codec calls := by
  have hFilter : runSession codec maxFileSize [] calls =
      runSession codec maxFileSize [] (calls.filter (codec.Fits ·.entry)) := by
    obtain ⟨-, hQueue, hConfig⟩ := WalWriter.openLatest_nil codec (sessionConfig maxFileSize)
    have hSession : (WalWriter.openLatest [] (sessionConfig maxFileSize)).InSession maxFileSize :=
      ⟨hConfig, hQueue⟩
    rw [runSession, runSession, hSession.calls_filter]
  have hFits : ∀ call ∈ calls.filter (codec.Fits ·.entry), codec.Fits call.entry :=
    fun call hc => by simpa using (List.mem_filter.mp hc).2
  have hFirst : FirstRotates codec maxFileSize 0 (calls.filter (codec.Fits ·.entry)) :=
    fun _ _ => Or.inl rfl
  obtain ⟨log, hGrows, hRests⟩ := Rests.nil.session hFits hFirst
  refine ⟨log, hFilter.trans hRests.dir, hRests.wellFormed, hRests.whole, ?_⟩
  rw [hGrows.entries, SegmentLog.entries_nil, List.nil_append, written, List.filter_map]
  rfl

end Cutting

section Reading
variable {entries kept lost : List WalEntry} {t : TxnId}

/-- What follows the Commit record of a transaction is not of its writes, and it has
no Rollback record. -/
theorem EndsOnce.of_commit (h : EndsOnce (kept ++ lost)) (hCommit : HasCommit kept t) :
    ⟨t, .rollback⟩ ∉ kept ∧ ∀ op ∈ lost, ∀ cf key, ¬ op.PutsAt t cf key := by
  obtain ⟨commitTs, insertedAt, hIn⟩ := hCommit
  obtain ⟨hOrder, -, hLater⟩ := List.pairwise_append.mp h
  constructor
  · intro hRollback
    obtain ⟨before, after, rfl⟩ := List.append_of_mem hIn
    obtain ⟨-, hAfter, hBefore⟩ := List.pairwise_append.mp hOrder
    rcases List.mem_append.mp hRollback with hEarly | hLate
    · have hBad := hBefore ⟨t, .rollback⟩ hEarly ⟨t, .commit commitTs insertedAt⟩ (by simp) rfl rfl
      cases hBad.1
    · have hLate : ⟨t, .rollback⟩ ∈ after := by simpa using hLate
      have hBad := (List.pairwise_cons.mp hAfter).1 ⟨t, .rollback⟩ hLate rfl rfl
      cases hBad.1
  · rintro op hOp cf key ⟨value, rfl⟩
    have hBad := hLater ⟨t, .commit commitTs insertedAt⟩ hIn ⟨t, .put cf key value⟩ hOp rfl rfl
    cases hBad.2

/-- The last put of a transaction at a key, among its live Put records. -/
theorem livePuts_lastOf {cf : UInt16} {key : Bytes} {value : Option Bytes}
    (hKept : ⟨t, .rollback⟩ ∉ entries)
    (h : LastOf (WalEntry.PutsAt t cf key) entries ⟨t, .put cf key value⟩) :
    ∃ before after, (livePuts t entries).filterMap WalEntry.version? =
        before ++ ⟨⟨cf, key⟩, t, value⟩ :: after ∧
      ∀ later ∈ after, later.id ≠ (⟨⟨cf, key⟩, t, value⟩ : Z1Entry).id := by
  induction entries using List.reverseRecOn with
  | nil =>
      obtain ⟨before, after, hSplit, -⟩ := h
      simp at hSplit
  | append_singleton entries entry ih =>
      have hOld : ⟨t, .rollback⟩ ∉ entries := fun hIn => hKept (by simp [hIn])
      rw [livePuts_concat]
      rcases lastOf_concat.mp h with rfl | ⟨hLast, hNot⟩
      · exact ⟨(livePuts t entries).filterMap WalEntry.version?, [], by
          simp [WalEntry.version?], by simp⟩
      · obtain ⟨before, after, hSplit, hAfter⟩ := ih hOld hLast
        obtain ⟨txnId, record⟩ := entry
        by_cases hTxn : txnId = t
        · subst hTxn
          cases record with
          | put cf' key' value' =>
              refine ⟨before, after ++ [⟨⟨cf', key'⟩, txnId, value'⟩], ?_, ?_⟩
              · simp [hSplit, WalEntry.version?]
              · intro later hLater
                rcases List.mem_append.mp hLater with hLater | hLater
                · exact hAfter later hLater
                · obtain rfl := List.mem_singleton.mp hLater
                  intro hId
                  simp only [Z1Entry.id, Prod.mk.injEq, Z1Key.mk.injEq, and_true] at hId
                  obtain ⟨rfl, rfl⟩ := hId
                  exact hNot ⟨value', rfl⟩
          | rollback => exact absurd (by simp) hKept
          | _ => exact ⟨before, after, by simpa using hSplit, hAfter⟩
        · exact ⟨before, after, by simpa [hTxn] using hSplit, hAfter⟩

/-- Reads of an engine opened on the log of a cut session alone. -/
theorem Engine.Opened.get_committed {dir : DataDir} {db : Engine} (h : db.Opened dir kept)
    (hNone : dir.l2 = [] ∧ dir.l3 = [] ∧ dir.checkpoints = {}) (hOnce : EndsOnce (kept ++ lost))
    (cf : UInt16) (key : Bytes) :
    CommittedValue (kept ++ lost) kept cf key (db.get cf key).1 := by
  obtain ⟨hL2, hL3, hCkpts⟩ := hNone
  have hHeld : ∀ e ∈ db.store.held, e ∈ db.store.l1.hot.values := by
    intro e he
    refine (Store.mem_held_iff.mp he).resolve_right fun hBeyond => ?_
    rcases (h.beyond e).mp hBeyond with hIn | hIn
    · rw [h.l2, hL2] at hIn
      simp at hIn
    · rw [h.l3, hL3] at hIn
      simp at hIn
  have hSees : ∀ t, db.snapshot.1.sees t = true ↔ InLog kept t := by
    intro t
    rw [h.sound.snapshot_sees, h.history, hCkpts]
    simp [CheckpointDir.history, CheckpointDir.recoveryBaseline, CheckpointDir.loadLatest]
  -- The last write of a committed writer is in the hot buffer and visible.
  have hWriter : ∀ t, HasCommit kept t → (∃ op ∈ kept ++ lost, op.PutsAt t cf key) →
      db.snapshot.1.sees t = true ∧ ∃ value, ⟨⟨cf, key⟩, t, value⟩ ∈ db.store.l1.hot.values ∧
        LastOf (WalEntry.PutsAt t cf key) (kept ++ lost) ⟨t, .put cf key value⟩ := by
    rintro t hCommit ⟨op, hOp, hPuts⟩
    obtain ⟨hRollback, hLost⟩ := hOnce.of_commit hCommit
    have hIn : op ∈ kept := (List.mem_append.mp hOp).resolve_right fun hIn => hLost op hIn cf key hPuts
    obtain ⟨last, ⟨value, rfl⟩, hLast⟩ := @exists_lastOf _ (WalEntry.PutsAt t cf key) kept op hIn hPuts
    obtain ⟨before, after, hSplit, hAfter⟩ := livePuts_lastOf hRollback hLast
    refine ⟨(hSees t).mpr ⟨hCommit, mem_pending_of_live fun hNil => ?_⟩, value,
      h.hotLast _ before after hCommit hSplit hAfter, ?_⟩
    · simp [hNil] at hSplit
    · obtain ⟨first, rest, rfl, hRest⟩ := hLast
      refine ⟨first, rest ++ lost, by simp, fun y hy => ?_⟩
      rcases List.mem_append.mp hy with hy | hy
      · exact hRest y hy
      · exact hLost y hy cf key
  obtain ⟨found, hFinds, hGet⟩ := db.store.getAt_finds db.snapshot.1 cf key
  rw [Engine.get_eq, hGet]
  cases found with
  | none =>
      refine Or.inr ⟨fun t hCommit op hOp hPuts => ?_, rfl⟩
      obtain ⟨hSeen, value, hHot, -⟩ := hWriter t hCommit ⟨op, hOp, hPuts⟩
      exact hFinds _ (Store.mem_held_iff.mpr (Or.inl hHot)) rfl hSeen
  | some e =>
      have hHot := hHeld e hFinds.isHeld
      obtain ⟨hCommit, op, hOp, hVersion⟩ := h.hot e hHot
      have hPuts : op.PutsAt e.txnId cf key := by
        obtain ⟨hIn, hTxn, cf', key', value', hRecord⟩ := mem_livePuts hOp
        have hKey := hFinds.hasKey
        obtain ⟨txnId, record⟩ := op
        simp only at hTxn hRecord
        subst hRecord
        obtain rfl := Option.some.inj hVersion
        obtain ⟨rfl, rfl⟩ := Z1Key.mk.inj hKey
        exact ⟨value', rfl⟩
      have hOp : op ∈ kept ++ lost := by simp [(mem_livePuts hOp).1]
      obtain ⟨-, value, hValue, hLast⟩ := hWriter e.txnId hCommit ⟨op, hOp, hPuts⟩
      have hSame : e = ⟨⟨cf, key⟩, e.txnId, value⟩ :=
        VersionMap.values_inj hHot hValue (by rw [Z1Entry.id, Z1Entry.id, hFinds.hasKey])
      refine Or.inl ⟨e.txnId, ⟨⟨hCommit, op, hOp, hPuts⟩, fun u hu => ?_⟩, ?_⟩
      · obtain ⟨hSeen, value', hHot', -⟩ := hWriter u hu.1 hu.2
        exact hFinds.newest _ (Store.mem_held_iff.mpr (Or.inl hHot')) rfl hSeen
      · rw [Option.bind_some, congrArg Z1Entry.value hSame]
        exact hLast

end Reading

/-- Whatever a session wrote on an empty directory and wherever its last segment was
cut, an open succeeds and reads what the transactions committed before the cut. -/
theorem torn_log_is_a_prefix (codec : Codec) (maxFileSize openSize : Nat) (calls : List WalCall)
    (kept : Nat) (env : OpenEnv) (config : Z1Config) (hOnce : EndsOnce (written codec calls)) :
    ∃ log : SegmentLog, runSession codec maxFileSize [] calls = log.dir codec ∧
      (∀ segment ∈ log, segment.torn = []) ∧ log.entries = written codec calls ∧
      ∃ db, Engine.openWithConfig codec openSize env config
          { wal := (runSession codec maxFileSize [] calls).cutLast (some kept) } = .ok db ∧
        ∀ cf key, CommittedValue (written codec calls) (log.beforeCut codec kept) cf key
          (db.get cf key).1 := by
  obtain ⟨log, hDir, hWellFormed, hWhole, hEntries⟩ := runSession_log codec maxFileSize calls
  obtain ⟨lost, hLost⟩ := @SegmentLog.beforeCut_initial codec log kept
  rw [hEntries] at hLost
  have hReplay : replayAll codec (WalWriter.openLatest ((runSession codec maxFileSize [] calls).cutLast
      (some kept)) (sessionConfig openSize)).dir = .ok (log.beforeCut codec kept) := by
    rw [hDir]
    exact SegmentLog.replayAll_cut hWellFormed hWhole kept _
  obtain ⟨db, hDb, hOpened⟩ := @open_readable codec openSize env config
    { wal := (runSession codec maxFileSize [] calls).cutLast (some kept) } _ hReplay
  refine ⟨log, hDir, hWhole, hEntries, db, hDb, fun cf key => ?_⟩
  rw [← hLost] at hOnce ⊢
  exact hOpened.get_committed ⟨rfl, rfl, rfl⟩ hOnce cf key

/-- Two transactions that write one key; the second Commit record is the last of the
log. -/
def twoWriters : List WalCall :=
  [.append ⟨1, .put 0 [107] (some [1])⟩, .appendDurable ⟨1, .commit 1 0⟩,
    .append ⟨2, .put 0 [107] (some [2])⟩, .appendDurable ⟨2, .commit 2 0⟩]

theorem torn_commit_is_not_read :
    EndsOnce (written Postcard.codec twoWriters) ∧
      ∃ log : SegmentLog, log.entries = written Postcard.codec twoWriters ∧
        ∃ db, Engine.openWithConfig Postcard.codec engineSegmentSize (.listed 0) {}
            { wal := (runSession Postcard.codec 30 [] twoWriters).cutLast (some 20) } = .ok db ∧
          CommittedValue (written Postcard.codec twoWriters) (log.beforeCut Postcard.codec 20) 0 [107]
            (db.get 0 [107]).1 := by
  have hOnce : EndsOnce (written Postcard.codec twoWriters) := by decide +kernel
  obtain ⟨log, -, -, hEntries, db, hDb, hReads⟩ := torn_log_is_a_prefix Postcard.codec 30
    engineSegmentSize twoWriters 20 (.listed 0) {} hOnce
  exact ⟨hOnce, log, hEntries, db, hDb, hReads 0 [107]⟩

-- The cut is inside the second Commit record.
example : (Engine.openWithConfig Postcard.codec engineSegmentSize (.listed 0) {}
    { wal := (runSession Postcard.codec 30 [] twoWriters).cutLast (some 20) }).toOption.map
      (fun db => (db.get 0 [107]).1) = some (some [1]) := by
  decide +kernel

end Z1Kv
