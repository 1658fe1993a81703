import Z1Kv.Wal.Recovery
import Z1Kv.Wal.Sessions

/-! One session of the WAL writer: an append extends the log or changes nothing,
and old segments are deleted as a whole. What recovery makes of a transaction is
followed through both. -/
namespace Z1Kv

/-- The writer of a session that stands at the end of a log without cut records. -/
structure WalWriter.Logs (codec : Codec) (maxFileSize : Nat) (w : WalWriter) (log : SegmentLog) :
    Prop extends w.AtEnd codec log, w.InSession maxFileSize where
  whole : ∀ segment ∈ log, segment.torn = []

section
variable {codec : Codec} {maxFileSize : Nat} {w : WalWriter} {log : SegmentLog}

/-- Under `SyncEach` the two append paths are one. -/
theorem WalWriter.InSession.appendDurable_eq (h : w.InSession maxFileSize) (txnId : TxnId)
    (record : WalRecord) : w.appendDurable codec txnId record = w.append codec txnId record := by
  simp [WalWriter.appendDurable, WalWriter.append, h.config, sessionConfig, WalConfig.syncPolicy]

theorem WalWriter.InSession.append_cases (h : w.InSession maxFileSize) (txnId : TxnId)
    (record : WalRecord) :
    (codec.Fits ⟨txnId, record⟩ ∧ w.append codec txnId record =
        (.ok (), w.appendEncoded (codec.frame ⟨txnId, record⟩))) ∨
      ¬ codec.Fits ⟨txnId, record⟩ ∧ ∃ e, w.append codec txnId record = (.error e, w) := by
  have hEnabled : w.config.enabled = true := by rw [h.config]; rfl
  unfold WalWriter.append
  rw [if_neg (by simp [hEnabled])]
  by_cases hFits : codec.Fits ⟨txnId, record⟩
  · rw [codec.encodeRecord_of_fits hFits]
    exact Or.inl ⟨hFits, rfl⟩
  · rw [codec.encodeRecord_refused hFits]
    exact Or.inr ⟨hFits, _, rfl⟩

theorem WalWriter.InSession.append_of_fits (h : w.InSession maxFileSize) {txnId : TxnId}
    {record : WalRecord} (hFits : codec.Fits ⟨txnId, record⟩) :
    w.append codec txnId record = (.ok (), (w.append codec txnId record).2) := by
  rcases @append_cases codec maxFileSize w h txnId record with ⟨-, hEq⟩ | ⟨hNot, -⟩
  · rw [hEq]
  · exact absurd hFits hNot

theorem WalWriter.InSession.append_error (h : w.InSession maxFileSize) {txnId : TxnId}
    {record : WalRecord} {e : Z1Error} {w' : WalWriter}
    (hAppend : w.append codec txnId record = (.error e, w')) : w' = w := by
  rcases @append_cases codec maxFileSize w h txnId record with ⟨-, hEq⟩ | ⟨-, e', hEq⟩
  · rw [hEq] at hAppend
    cases (Prod.mk.inj hAppend).1
  · rw [hEq] at hAppend
    exact (Prod.mk.inj hAppend).2.symm

/-- An append adds its record to the log, or fails and leaves the writer alone. -/
theorem WalWriter.Logs.append (h : w.Logs codec maxFileSize log) (txnId : TxnId)
    (record : WalRecord) :
    (∃ w' log', w.append codec txnId record = (.ok (), w') ∧ w'.Logs codec maxFileSize log' ∧
      log.Grows codec log' [⟨txnId, record⟩]) ∨
      ¬ codec.Fits ⟨txnId, record⟩ ∧ ∃ e, w.append codec txnId record = (.error e, w) := by
  rcases @InSession.append_cases codec maxFileSize w h.toInSession txnId record with
    ⟨hFits, hEq⟩ | ⟨hFits, e, hEq⟩
  · obtain ⟨log', hEnd, hGrows⟩ := h.toAtEnd.append hFits
    refine Or.inl ⟨_, log', hEq, ⟨hEnd, h.toInSession.append _, fun s hs => ?_⟩, hGrows⟩
    exact (hGrows.fresh s hs).elim (h.whole s) id
  · exact Or.inr ⟨hFits, e, hEq⟩

/-- Replay of such a log reads its entries. -/
theorem WalWriter.Logs.replay (h : w.Logs codec maxFileSize log) :
    replayAll codec w.dir = .ok log.entries := by
  rw [h.dir]
  exact replayAll_clean h.wellFormed fun s hs => h.whole s (List.dropLast_subset _ hs)

theorem WalWriter.Logs.close (h : w.Logs codec maxFileSize log) : w.close codec = log.dir codec :=
  (h.toInSession.close codec).trans h.dir

/-- The segments of a log from a position on. -/
def SegmentLog.since (log : SegmentLog) (pos : Nat) : SegmentLog := log.filter (pos ≤ ·.seq)

@[simp] theorem SegmentLog.since_zero (log : SegmentLog) : log.since 0 = log := by
  simp [since]

def SegmentLog.before (log : SegmentLog) (pos : Nat) : SegmentLog := log.filter (·.seq < pos)

theorem SegmentLog.before_append_since {log : SegmentLog} (h : log.WellFormed codec) (pos : Nat) :
    log.before pos ++ log.since pos = log := by
  unfold before since
  induction log with
  | nil => rfl
  | cons segment rest ih =>
      have hAbove := (List.pairwise_cons.mp h.ascending).1
      by_cases hLt : segment.seq < pos
      · rw [List.filter_cons_of_pos (by simpa using hLt), List.filter_cons_of_neg (by simpa using hLt),
          List.cons_append, ih h.tail]
      · have hAll : rest.filter (fun s => decide (pos ≤ s.seq)) = rest :=
          List.filter_eq_self.mpr fun s hs => by
            simpa using (Nat.le_of_not_lt hLt).trans (hAbove s hs).le
        have hNone : rest.filter (fun s => decide (s.seq < pos)) = [] :=
          List.filter_eq_nil_iff.mpr fun s hs => by
            simpa using (Nat.le_of_not_lt hLt).trans (hAbove s hs).le
        rw [List.filter_cons_of_neg (by simpa using hLt),
          List.filter_cons_of_pos (by simpa using Nat.le_of_not_lt hLt), hAll, hNone, List.nil_append]

/-- Deleting segments below the current one keeps the writer where it is. -/
theorem WalWriter.Logs.truncate (h : w.Logs codec maxFileSize log) (keep : Nat → Bool)
    (hLast : keep w.seq = true) :
    { w with dir := w.dir.filter (keep ·.1) }.Logs codec maxFileSize (log.filter (keep ·.seq)) := by
  obtain ⟨front, entries, rfl, hCursor⟩ := h.last
  refine ⟨⟨⟨?_, ⟨h.wellFormed.ascending.filter _, fun s hs => ?_⟩, fun s hs => ?_⟩,
    front.filter (keep ·.seq), entries, ?_, hCursor⟩, ⟨h.config, h.queue⟩, fun s hs => ?_⟩
  · dsimp only
    rw [h.dir, SegmentLog.dir, SegmentLog.dir, List.filter_map]
    rfl
  · exact h.wellFormed.segments s (List.mem_filter.mp hs).1
  · exact h.below s (List.mem_filter.mp hs).1
  · rw [List.filter_append]
    simp [hLast]
  · exact h.whole s (List.mem_filter.mp hs).1

theorem WalWriter.Logs.truncateBefore (h : w.Logs codec maxFileSize log) :
    ∃ w', w.truncateBefore w.position = (.ok (w.dir.filter (·.1 < w.seq)).length, w') ∧
      w'.Logs codec maxFileSize (log.since w.seq) := by
  refine ⟨_, ?_, h.truncate (fun seq => w.seq ≤ seq) (by simp)⟩
  unfold WalWriter.truncateBefore
  rw [if_neg (by simp [h.queue])]
  rfl

/-- The segment that takes the next record of this length. -/
def WalWriter.nextSeq (w : WalWriter) (length : Nat) : Nat :=
  if w.Rotates length then w.seq + 1 else w.seq

theorem WalWriter.appendEncoded_seq (w : WalWriter) (frame : Bytes) :
    (w.appendEncoded frame).seq = w.nextSeq frame.length := by
  by_cases hRotates : w.Rotates frame.length
  · simp [appendEncoded, nextSeq, hRotates, write, rotate]
  · simp [appendEncoded, nextSeq, hRotates, write]

/-- An append adds its record to what the log has from a position on, if it is not
beyond the segment that takes the record. -/
theorem WalWriter.Logs.append_since (h : w.Logs codec maxFileSize log) {entry : WalEntry}
    (hFits : codec.Fits entry) {pos : Nat} (hPos : pos ≤ w.nextSeq (codec.frame entry).length) :
    ∃ log', (w.appendEncoded (codec.frame entry)).Logs codec maxFileSize log' ∧
      (log'.since pos).entries = (log.since pos).entries ++ [entry] := by
  have hSession := h.toInSession.append (codec.frame entry)
  unfold nextSeq at hPos
  by_cases hRotates : w.Rotates (codec.frame entry).length
  · rw [if_pos hRotates] at hPos
    have hEnd := (h.toHolds.append_rotates hFits hRotates).toAtEnd
    refine ⟨log ++ [{ seq := w.seq + 1, entries := [entry] }], ⟨hEnd, hSession, fun s hs => ?_⟩, ?_⟩
    · rcases List.mem_append.mp hs with hs | hs
      · exact h.whole s hs
      · rw [List.mem_singleton.mp hs]
    · rw [SegmentLog.since, SegmentLog.since, List.filter_append, SegmentLog.entries_append,
        List.filter_cons_of_pos (by simpa using hPos)]
      simp
  · rw [if_neg hRotates] at hPos
    obtain ⟨front, entries, rfl, -⟩ := h.last
    have hEnd := h.toAtEnd.append_stays hFits hRotates
    refine ⟨front ++ [{ seq := w.seq, entries := entries ++ [entry] }],
      ⟨hEnd, hSession, fun s hs => ?_⟩, ?_⟩
    · rcases List.mem_append.mp hs with hs | hs
      · exact h.whole s (by simp [hs])
      · rw [List.mem_singleton.mp hs]
    · rw [SegmentLog.since, SegmentLog.since, List.filter_append, List.filter_append,
        SegmentLog.entries_append, SegmentLog.entries_append,
        List.filter_cons_of_pos (by simpa using hPos), List.filter_cons_of_pos (by simpa using hPos)]
      simp

/-- An append that succeeds adds its record to the log, and to what the log has from a
position on that is not beyond the current segment. -/
theorem WalWriter.Logs.append_ok (h : w.Logs codec maxFileSize log) {pos : Nat} (hPos : pos ≤ w.seq)
    {txnId : TxnId} {record : WalRecord} {w' : WalWriter}
    (hAppend : w.append codec txnId record = (.ok (), w')) :
    ∃ log', w'.Logs codec maxFileSize log' ∧ pos ≤ w'.seq ∧
      (log'.since pos).entries = (log.since pos).entries ++ [⟨txnId, record⟩] := by
  rcases @InSession.append_cases codec maxFileSize w h.toInSession txnId record with
    ⟨hFits, hEq⟩ | ⟨-, e, hEq⟩
  · rw [hEq] at hAppend
    obtain ⟨-, rfl⟩ := Prod.mk.inj hAppend
    have hNext : pos ≤ w.nextSeq (codec.frame ⟨txnId, record⟩).length := by
      unfold nextSeq
      split
      · exact Nat.le_succ_of_le hPos
      · exact hPos
    obtain ⟨log', hLogs, hEntries⟩ := h.append_since hFits hNext
    refine ⟨log', hLogs, ?_, hEntries⟩
    rwa [w.appendEncoded_seq]
  · rw [hEq] at hAppend
    cases (Prod.mk.inj hAppend).1

/-- An append, then the deletion of the segments below the current one. -/
theorem WalWriter.Logs.append_truncate (h : w.Logs codec maxFileSize log) {entry : WalEntry}
    (hFits : codec.Fits entry) :
    ∃ w' log', (w.appendEncoded (codec.frame entry)).truncateBefore
        (w.appendEncoded (codec.frame entry)).position =
          (.ok ((w.appendEncoded (codec.frame entry)).dir.filter
            (·.1 < (w.appendEncoded (codec.frame entry)).seq)).length, w') ∧
      w'.Logs codec maxFileSize log' ∧
      log'.entries = (log.since (w.nextSeq (codec.frame entry).length)).entries ++ [entry] := by
  obtain ⟨middle, hMiddle, hEntries⟩ := h.append_since hFits le_rfl
  obtain ⟨w', hEq, hLogs⟩ := hMiddle.truncateBefore
  refine ⟨w', _, hEq, hLogs, ?_⟩
  rw [w.appendEncoded_seq, hEntries]

/-- A record in a segment below the position. -/
def WalDir.Below (codec : Codec) (dir : WalDir) (pos : Nat) (op : WalEntry) : Prop :=
  ∃ file ∈ dir, file.1 < pos ∧ ∃ records, replaySegment codec true file.2 = .ok records ∧ op ∈ records

theorem WalWriter.Logs.recordBelow (h : w.Logs codec maxFileSize log) {pos : Nat} {op : WalEntry}
    (hOp : op ∈ (log.before pos).entries) : w.dir.Below codec pos op := by
  obtain ⟨segment, hs, hIn⟩ := List.mem_flatMap.mp hOp
  obtain ⟨hs, hLt⟩ := List.mem_filter.mp hs
  refine ⟨(segment.seq, segment.bytes codec), ?_, by simpa using hLt, segment.entries, ?_, hIn⟩
  · rw [h.dir]
    exact List.mem_map_of_mem hs
  · exact replaySegment_segment (h.wellFormed.segments segment hs) (Or.inr rfl)

end
end Z1Kv
