import Z1Kv.Wal.Upkeep

/-! Appends whose file operations may fail. A write that fails may have left some of
its bytes behind; the writer's byte count is then not advanced, the handle is. -/
namespace Z1Kv

/-- Outcomes of the file operations behind one append: sync of the old segment and
creation of the next one, the write, which may fail after some bytes, and the sync of
a durable append. -/
structure AppendIo where
  rotated : Bool := true
  failsAfter : Option Nat := none
  synced : Bool := true

/-- Nothing is left behind by a write that fails. -/
def AppendIo.Whole (io : AppendIo) : Prop := ∀ n, io.failsAfter = some n → n = 0

/-- An append of this length gets its bytes into the file. -/
def AppendIo.Writes (io : AppendIo) (w : WalWriter) (length : Nat) : Prop :=
  (w.Rotates length → io.rotated = true) ∧ io.failsAfter = none

instance (io : AppendIo) (w : WalWriter) (length : Nat) : Decidable (io.Writes w length) :=
  inferInstanceAs (Decidable (_ ∧ _))

namespace WalWriter

/-- `write_all` on the open handle. -/
def writeIo (io : AppendIo) (w : WalWriter) (bytes : Bytes) : Except Z1Error Unit × WalWriter :=
  match io.failsAfter with
  | none => (.ok (), w.write bytes)
  | some n =>
      (.error (.io .other),
        { w with
          dir := w.dir.writeAt w.seq w.cursor (bytes.take n)
          cursor := w.cursor + (bytes.take n).length })

def appendEncodedIo (io : AppendIo) (w : WalWriter) (bytes : Bytes) :
    Except Z1Error Unit × WalWriter :=
  if w.Rotates bytes.length then
    if io.rotated then w.rotate.writeIo io bytes else (.error (.io .other), w)
  else w.writeIo io bytes

section
variable (codec : Codec)

/-- `append` with the outcomes of its file operations. -/
def appendIo (io : AppendIo) (w : WalWriter) (txnId : TxnId) (record : WalRecord) :
    Except Z1Error Unit × WalWriter :=
  if w.config.enabled = false then (.ok (), w)
  else
    match codec.encodeRecord ⟨txnId, record⟩ with
    | .error e => (.error e, w)
    | .ok bytes => w.appendEncodedIo io bytes

/-- `append_durable` under `SyncEach`, the policy of the engine. -/
def appendDurableIo (io : AppendIo) (w : WalWriter) (txnId : TxnId) (record : WalRecord) :
    Except Z1Error Unit × WalWriter :=
  if w.config.enabled = false then (.ok (), w)
  else
    match w.appendIo codec io txnId record with
    | (.error e, w) => (.error e, w)
    | (.ok (), w) => if io.synced then (.ok (), w) else (.error (.io .other), w)

end

section
variable {codec : Codec} {maxFileSize : Nat} {w : WalWriter} {log : SegmentLog} {io : AppendIo}

theorem appendEncodedIo_of_writes {bytes : Bytes} (h : io.Writes w bytes.length) :
    w.appendEncodedIo io bytes = (.ok (), w.appendEncoded bytes) := by
  unfold appendEncodedIo appendEncoded
  split
  · next hRotates =>
    rw [if_pos (h.1 hRotates), writeIo, h.2]
  · rw [writeIo, h.2]

/-- The two appends agree when the bytes reach the file, and when the record is over
the limit. -/
theorem InSession.appendIo_eq (hSession : w.InSession maxFileSize) {txnId : TxnId} {record : WalRecord}
    (h : codec.Fits ⟨txnId, record⟩ → io.Writes w (codec.frame ⟨txnId, record⟩).length) :
    w.appendIo codec io txnId record = w.append codec txnId record := by
  have hEnabled : w.config.enabled = true := by rw [hSession.config]; rfl
  unfold appendIo WalWriter.append
  rw [if_neg (by simp [hEnabled]), if_neg (by simp [hEnabled])]
  by_cases hFits : codec.Fits ⟨txnId, record⟩
  · rw [codec.encodeRecord_of_fits hFits]
    exact appendEncodedIo_of_writes (h hFits)
  · rw [codec.encodeRecord_refused hFits]

@[simp] theorem writeAt_nil (dir : WalDir) (seq pos : Nat) : dir.writeAt seq pos [] = dir := by
  have hSame : ∀ file : Nat × Bytes,
      (if file.1 = seq then (seq, Bytes.overwrite file.2 pos []) else file) = file := by
    rintro ⟨number, bytes⟩
    split
    · next hSeq =>
      subst hSeq
      simp [Bytes.overwrite]
    · rfl
  simp [WalDir.writeAt, hSame]

/-- An append succeeds if the record is within the limit and its bytes reach the
file. -/
theorem InSession.appendIo_ok (hSession : w.InSession maxFileSize) {txnId : TxnId} {record : WalRecord} :
    (w.appendIo codec io txnId record).1 = .ok () ↔
      codec.Fits ⟨txnId, record⟩ ∧ io.Writes w (codec.frame ⟨txnId, record⟩).length := by
  have hEnabled : w.config.enabled = true := by rw [hSession.config]; rfl
  unfold appendIo
  rw [if_neg (by simp [hEnabled])]
  by_cases hFits : codec.Fits ⟨txnId, record⟩
  · rw [codec.encodeRecord_of_fits hFits]
    dsimp only
    unfold appendEncodedIo writeIo AppendIo.Writes
    split
    · next hRotates =>
      cases io.rotated <;> cases io.failsAfter <;> simp [hFits, hRotates]
    · next hStays => cases io.failsAfter <;> simp [hFits, hStays]
  · rw [codec.encodeRecord_refused hFits]
    simp [hFits]

/-- A durable append that succeeds is one without failures. -/
theorem InSession.append_of_io (h : w.InSession maxFileSize) {txnId : TxnId} {record : WalRecord}
    {w' : WalWriter} (hAppend : w.appendDurableIo codec io txnId record = (.ok (), w')) :
    w.append codec txnId record = (.ok (), w') := by
  have hEnabled : w.config.enabled = true := by rw [h.config]; rfl
  have hOk := @appendIo_ok codec maxFileSize w io h txnId record
  unfold appendDurableIo at hAppend
  rw [if_neg (by simp [hEnabled])] at hAppend
  generalize hIo : w.appendIo codec io txnId record = appended at hAppend hOk
  obtain ⟨result, after⟩ := appended
  cases result with
  | error e => cases (Prod.mk.inj hAppend).1
  | ok _ =>
      dsimp only at hAppend
      split at hAppend
      · obtain ⟨-, rfl⟩ := Prod.mk.inj hAppend
        rw [← hIo]
        exact (h.appendIo_eq fun _ => (hOk.mp rfl).2).symm
      · cases (Prod.mk.inj hAppend).1

/-- A new empty segment at the end of the log. -/
theorem Logs.rotate (h : w.Logs codec maxFileSize log) :
    w.rotate.Logs codec maxFileSize (log ++ [{ seq := w.seq + 1, entries := [] }]) := by
  have hBelow : ∀ file ∈ log.dir codec, file.1 < w.seq + 1 := by
    intro file hf
    obtain ⟨segment, hs, rfl⟩ := List.mem_map.mp hf
    exact Nat.lt_succ_of_le (h.below segment hs)
  refine ⟨⟨⟨?_, ⟨?_, ?_⟩, ?_⟩, log, [], rfl, rfl⟩, ⟨h.config, h.queue⟩, ?_⟩
  · rw [WalWriter.rotate, h.dir]
    dsimp only
    rw [WalDir.create_above hBelow]
    simp [SegmentLog.dir, Segment.bytes]
  · refine List.pairwise_append.mpr ⟨h.wellFormed.ascending, by simp, ?_⟩
    intro s hs t ht
    obtain rfl := List.mem_singleton.mp ht
    exact Nat.lt_succ_of_le (h.below s hs)
  · intro s hs
    rcases List.mem_append.mp hs with hs | hs
    · exact h.wellFormed.segments s hs
    · obtain rfl := List.mem_singleton.mp hs
      exact ⟨by simp, Or.inl rfl⟩
  · intro s hs
    rcases List.mem_append.mp hs with hs | hs
    · exact Nat.le_succ_of_le (h.below s hs)
    · obtain rfl := List.mem_singleton.mp hs
      exact le_rfl
  · intro s hs
    rcases List.mem_append.mp hs with hs | hs
    · exact h.whole s hs
    · rw [List.mem_singleton.mp hs]

/-- A record within the limit whose bytes do not reach the file: the append fails,
and if nothing was left behind the log has the entries it had. -/
theorem Logs.appendIo_failed (h : w.Logs codec maxFileSize log) {txnId : TxnId} {record : WalRecord}
    (hFits : codec.Fits ⟨txnId, record⟩)
    (hFails : ¬ io.Writes w (codec.frame ⟨txnId, record⟩).length) :
    ∃ w', w.appendIo codec io txnId record = (.error (.io .other), w') ∧
      (io.Whole → ∃ log', w'.Logs codec maxFileSize log' ∧ log'.entries = log.entries) := by
  have hEnabled : w.config.enabled = true := by rw [h.config]; rfl
  unfold WalWriter.appendIo
  rw [if_neg (by simp [hEnabled]), codec.encodeRecord_of_fits hFits]
  dsimp only
  unfold appendEncodedIo
  have hWrite : ∀ v : WalWriter, (∃ n, io.failsAfter = some n) →
      (∃ log', v.Logs codec maxFileSize log' ∧ log'.entries = log.entries) →
      ∃ w', v.writeIo io (codec.frame ⟨txnId, record⟩) = (.error (.io .other), w') ∧
        (io.Whole → ∃ log', w'.Logs codec maxFileSize log' ∧ log'.entries = log.entries) := by
    rintro v ⟨n, hn⟩ hLogs
    refine ⟨_, by rw [writeIo, hn], fun hWhole => ?_⟩
    obtain rfl := hWhole n hn
    simpa using hLogs
  have hFailed : io.failsAfter ≠ none → ∃ n, io.failsAfter = some n := Option.ne_none_iff_exists'.mp
  split
  · next hRotates =>
    by_cases hRotated : io.rotated = true
    · rw [if_pos hRotated]
      refine hWrite _ (hFailed fun hNone => hFails ⟨fun _ => hRotated, hNone⟩) ⟨_, h.rotate, ?_⟩
      simp
    · rw [if_neg hRotated]
      exact ⟨w, rfl, fun _ => ⟨log, h, rfl⟩⟩
  · next hStays =>
    exact hWrite _ (hFailed fun hNone => hFails ⟨fun hRotates => absurd hRotates hStays, hNone⟩)
      ⟨log, h, rfl⟩

/-- The directory is a log whose last segment is the current one; only that one may end
in a cut record. -/
def Readable (codec : Codec) (w : WalWriter) : Prop :=
  ∃ front last, w.dir = SegmentLog.dir codec (front ++ [last]) ∧
    SegmentLog.WellFormed codec (front ++ [last]) ∧ (∀ segment ∈ front, segment.torn = []) ∧
    last.seq = w.seq

theorem Logs.readable (h : w.Logs codec maxFileSize log) : w.Readable codec := by
  obtain ⟨front, entries, rfl, -⟩ := h.last
  exact ⟨front, _, h.dir, h.wellFormed, fun s hs => h.whole s (by simp [hs]), rfl⟩

/-- A failing write leaves its first bytes at the end of the last segment. -/
theorem Logs.writeIo_dir {front : SegmentLog} {entries : List WalEntry}
    (h : w.Logs codec maxFileSize (front ++ [{ seq := w.seq, entries }])) {bytes : Bytes} {n : Nat}
    (hFails : io.failsAfter = some n) :
    (w.writeIo io bytes).2.dir =
      SegmentLog.dir codec (front ++ [⟨w.seq, entries, bytes.take n⟩]) := by
  obtain ⟨front', entries', hLog, hCursor⟩ := h.last
  obtain ⟨rfl, hLast⟩ := List.append_inj' hLog rfl
  obtain rfl : entries = entries' := by simpa using hLast
  obtain ⟨-, -, hBelow⟩ := List.pairwise_append.mp h.wellFormed.ascending
  have hOther : ∀ other ∈ SegmentLog.dir codec front, other.1 ≠ w.seq := by
    intro other ho
    obtain ⟨segment, hs, rfl⟩ := List.mem_map.mp ho
    exact (hBelow segment hs _ (List.mem_singleton.mpr rfl)).ne
  have hOld : w.dir = SegmentLog.dir codec front ++ [(w.seq, codec.frames entries)] := by
    rw [h.dir, SegmentLog.dir_append]
    simp [SegmentLog.dir, Segment.bytes]
  simp only [writeIo, hFails, hOld]
  rw [WalDir.writeAt_last hOther, hCursor, SegmentLog.dir_append]
  simp [Bytes.overwrite, SegmentLog.dir, Segment.bytes]

theorem Logs.replaceLast {front : SegmentLog} {entries : List WalEntry}
    (h : w.Logs codec maxFileSize (front ++ [{ seq := w.seq, entries }])) {last : Segment}
    (hSeq : last.seq = w.seq) (hLast : last.WellFormed codec) :
    SegmentLog.WellFormed codec (front ++ [last]) := by
  obtain ⟨hFront, -, hBelow⟩ := List.pairwise_append.mp h.wellFormed.ascending
  refine ⟨List.pairwise_append.mpr ⟨hFront, by simp, fun s hs t ht => ?_⟩, fun s hs => ?_⟩
  · obtain rfl := List.mem_singleton.mp ht
    rw [hSeq]
    exact hBelow s hs _ (List.mem_singleton.mpr rfl)
  · rcases List.mem_append.mp hs with hs | hs
    · exact h.wellFormed.segments s (by simp [hs])
    · rw [List.mem_singleton.mp hs]
      exact hLast

/-- Whatever a write leaves behind, the log before it can be read. -/
theorem Logs.writeIo_readable (h : w.Logs codec maxFileSize log) {entry : WalEntry}
    (hFits : codec.Fits entry) {n : Nat} (hFails : io.failsAfter = some n) :
    (w.writeIo io (codec.frame entry)).2.Readable codec := by
  obtain ⟨front, entries, rfl, -⟩ := h.last
  have hDir := @Logs.writeIo_dir codec maxFileSize w io front entries h (codec.frame entry) n hFails
  have hSeq : (w.writeIo io (codec.frame entry)).2.seq = w.seq := by
    simp [writeIo, hFails]
  have hLastFits : ∀ e ∈ entries, codec.Fits e :=
    (h.wellFormed.segments _ (List.mem_append_right _ (List.mem_singleton.mpr rfl))).1
  have hWholeFront : ∀ segment ∈ front, segment.torn = [] := fun s hs => h.whole s (by simp [hs])
  by_cases hAll : (codec.frame entry).take n = codec.frame entry
  · refine ⟨front, ⟨w.seq, entries ++ [entry], []⟩, ?_, h.replaceLast rfl ⟨?_, Or.inl rfl⟩,
      hWholeFront, hSeq.symm⟩
    · rw [hDir, hAll]
      simp [SegmentLog.dir, Segment.bytes]
    · intro e he
      rcases List.mem_append.mp he with he | he
      · exact hLastFits e he
      · rwa [List.mem_singleton.mp he]
  · have hTorn : Torn codec ((codec.frame entry).take n) :=
      ⟨entry, hFits, List.take_prefix _ _, hAll⟩
    exact ⟨front, ⟨w.seq, entries, (codec.frame entry).take n⟩, hDir,
      h.replaceLast rfl ⟨hLastFits, Or.inr hTorn⟩, hWholeFront, hSeq.symm⟩

/-- The log can be read after an append, however far it got. -/
theorem Logs.appendIo_readable (h : w.Logs codec maxFileSize log) (txnId : TxnId) (record : WalRecord) :
    (w.appendIo codec io txnId record).2.Readable codec := by
  by_cases hWrites : codec.Fits ⟨txnId, record⟩ → io.Writes w (codec.frame ⟨txnId, record⟩).length
  · rw [h.toInSession.appendIo_eq hWrites]
    rcases h.append txnId record with ⟨w', log', hEq, hLogs, -⟩ | ⟨-, e, hEq⟩
    · rw [hEq]
      exact hLogs.readable
    · rw [hEq]
      exact h.readable
  · obtain ⟨hFits, hFails⟩ := Classical.not_imp.mp hWrites
    have hEnabled : w.config.enabled = true := by rw [h.config]; rfl
    have hFailed : io.failsAfter ≠ none → ∃ n, io.failsAfter = some n := Option.ne_none_iff_exists'.mp
    unfold WalWriter.appendIo
    rw [if_neg (by simp [hEnabled]), codec.encodeRecord_of_fits hFits]
    dsimp only
    unfold appendEncodedIo
    split
    · next hRotates =>
      by_cases hRotated : io.rotated = true
      · rw [if_pos hRotated]
        obtain ⟨n, hn⟩ := hFailed fun hNone => hFails ⟨fun _ => hRotated, hNone⟩
        exact h.rotate.writeIo_readable hFits hn
      · rw [if_neg hRotated]
        exact h.readable
    · next hStays =>
      obtain ⟨n, hn⟩ := hFailed fun hNone => hFails ⟨fun hRotates => absurd hRotates hStays, hNone⟩
      exact h.writeIo_readable hFits hn

theorem Logs.appendDurableIo_readable (h : w.Logs codec maxFileSize log) (txnId : TxnId)
    (record : WalRecord) : (w.appendDurableIo codec io txnId record).2.Readable codec := by
  have hEnabled : w.config.enabled = true := by rw [h.config]; rfl
  have hAppend : (w.appendIo codec io txnId record).2.Readable codec :=
    h.appendIo_readable txnId record
  unfold appendDurableIo
  rw [if_neg (by simp [hEnabled])]
  generalize w.appendIo codec io txnId record = outcome at hAppend
  obtain ⟨result, after⟩ := outcome
  cases result with
  | error e => exact hAppend
  | ok _ =>
      dsimp only
      split <;> exact hAppend

end
end WalWriter
end Z1Kv
