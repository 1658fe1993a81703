import Z1Kv.Library.Runs
import Z1Kv.Wal.Faults
import Z1Kv.Wal.Postcard

/-! Runs with failing writes. A write that fails may leave the beginning of its record
in the segment; the handle then stands behind it and the byte count before it. Replay
tolerates that beginning only as the very end of the log. -/
namespace Z1Kv

/-- A call and its file operations; a write that fails has written less than the record. -/
structure FaultyCall (codec : Codec) where
  call : WalCall
  io : AppendIo := {}
  strict : ∀ n, io.failsAfter = some n → n < (codec.frame call.entry).length := by simp

section
variable {codec : Codec}

def WalWriter.callIo (w : WalWriter) (c : FaultyCall codec) : Except Z1Error Unit × WalWriter :=
  match c.call with
  | .append entry => w.appendIo codec c.io entry.txnId entry.record
  | .appendDurable entry => w.appendDurableIo codec c.io entry.txnId entry.record

/-- The call creates a segment or gets a byte into the open one. -/
def FaultyCall.Touches (w : WalWriter) (c : FaultyCall codec) : Prop :=
  codec.Fits c.call.entry ∧
    (w.Rotates (codec.frame c.call.entry).length → c.io.rotated = true) ∧
    (¬ w.Rotates (codec.frame c.call.entry).length → c.io.failsAfter ≠ some 0)

instance (w : WalWriter) (c : FaultyCall codec) : Decidable (c.Touches w) :=
  inferInstanceAs (Decidable (_ ∧ _ ∧ _))

/-- The call does not touch the files while the handle stands behind bytes that a failed
write left. -/
def FaultyCall.Undisturbing (w : WalWriter) (c : FaultyCall codec) : Prop :=
  w.cursor = w.segmentBytes ∨ ¬ c.Touches w

/-- The records whose durable append returned Ok. -/
def durableRecords (events : List (FaultyCall codec × Except Z1Error Unit)) : List WalEntry :=
  (events.filter fun event => event.1.call.durable && event.2.isOk).map fun event =>
    event.1.call.entry

/-- Replay returns Ok and reads these records. -/
def ReplaysWith (codec : Codec) (records : List WalEntry) (w : WalWriter) : Prop :=
  ∃ read, replayAll codec w.dir = .ok read ∧ records.Sublist read

end

section
variable {codec : Codec} {maxFileSize : Nat} {w : WalWriter} {log : SegmentLog}

theorem WalWriter.InSession.appendIo_fits {io : AppendIo} (h : w.InSession maxFileSize)
    {entry : WalEntry} (hFits : codec.Fits entry) :
    w.appendIo codec io entry.txnId entry.record = w.appendEncodedIo io (codec.frame entry) := by
  have hEnabled : w.config.enabled = true := by rw [h.config]; rfl
  unfold WalWriter.appendIo
  rw [if_neg (by simp [hEnabled]), codec.encodeRecord_of_fits hFits]

theorem WalWriter.InSession.appendIo_refused {io : AppendIo} (h : w.InSession maxFileSize)
    {entry : WalEntry} (hFits : ¬ codec.Fits entry) :
    ∃ e, w.appendIo codec io entry.txnId entry.record = (.error e, w) := by
  have hEnabled : w.config.enabled = true := by rw [h.config]; rfl
  unfold WalWriter.appendIo
  rw [if_neg (by simp [hEnabled]), codec.encodeRecord_refused hFits]
  exact ⟨_, rfl⟩

/-- A call is its append; a durable one may still fail to sync. -/
theorem WalWriter.InSession.callIo_eq (h : w.InSession maxFileSize) (c : FaultyCall codec) :
    (w.callIo c).2 = (w.appendIo codec c.io c.call.entry.txnId c.call.entry.record).2 ∧
      ((w.callIo c).1.isOk = true →
        (w.appendIo codec c.io c.call.entry.txnId c.call.entry.record).1.isOk = true) := by
  have hEnabled : w.config.enabled = true := by rw [h.config]; rfl
  unfold WalWriter.callIo
  cases hCall : c.call with
  | append entry => exact ⟨rfl, id⟩
  | appendDurable entry =>
      simp only [WalWriter.appendDurableIo, hEnabled, WalCall.entry]
      rcases w.appendIo codec c.io entry.txnId entry.record with ⟨e | _, next⟩
      · exact ⟨rfl, id⟩
      · refine ⟨?_, fun _ => rfl⟩
        simp only [Bool.true_eq_false, if_false]
        split <;> rfl

/-- An append that does not touch the files changes nothing and fails. -/
theorem WalWriter.InSession.appendIo_untouched (h : w.InSession maxFileSize) {c : FaultyCall codec}
    (hTouches : ¬ c.Touches w) :
    ∃ e, w.appendIo codec c.io c.call.entry.txnId c.call.entry.record = (.error e, w) := by
  by_cases hFits : codec.Fits c.call.entry
  · rw [h.appendIo_fits hFits, WalWriter.appendEncodedIo]
    split
    · next hRotates =>
      have hRotated : ¬ c.io.rotated = true := fun hRotated =>
        hTouches ⟨hFits, fun _ => hRotated, fun hStays => absurd hRotates hStays⟩
      rw [if_neg hRotated]
      exact ⟨_, rfl⟩
    · next hStays =>
      have hNothing : c.io.failsAfter = some 0 := by
        by_contra hSome
        exact hTouches ⟨hFits, fun hRotates => absurd hRotates hStays, fun _ => hSome⟩
      refine ⟨.io .other, ?_⟩
      simp [WalWriter.writeIo, hNothing]
  · exact h.appendIo_refused hFits

/-- Either the log is whole and the byte count is the handle's offset, or only the end
of the log is cut and the two differ. -/
def Tolerated (codec : Codec) (maxFileSize : Nat) (records : List WalEntry) (w : WalWriter) : Prop :=
  (∃ log, w.Logs codec maxFileSize log ∧ w.cursor = w.segmentBytes ∧ records.Sublist log.entries) ∨
    (w.cursor ≠ w.segmentBytes ∧ w.InSession maxFileSize ∧ ∃ log : SegmentLog,
      w.dir = log.dir codec ∧ log.WellFormed codec ∧ log.Clean ∧ records.Sublist log.entries)

theorem Tolerated.inSession {records : List WalEntry} (h : Tolerated codec maxFileSize records w) :
    w.InSession maxFileSize := by
  rcases h with ⟨log, hLogs, -⟩ | ⟨-, hSession, -⟩
  · exact hLogs.toInSession
  · exact hSession

theorem Tolerated.replays {records : List WalEntry} (h : Tolerated codec maxFileSize records w) :
    ReplaysWith codec records w := by
  rcases h with ⟨log, hLogs, -, hSub⟩ | ⟨-, -, log, hDir, hFormed, hClean, hSub⟩
  · exact ⟨log.entries, hLogs.replay, hSub⟩
  · exact ⟨log.entries, hDir ▸ replayAll_clean hFormed hClean, hSub⟩

/-- A write that fails at the end of a whole log leaves it whole, or cut at its end. -/
theorem WalWriter.Logs.writeIo_tolerated (h : w.Logs codec maxFileSize log)
    (hCount : w.cursor = w.segmentBytes) {io : AppendIo} {entry : WalEntry}
    (hFits : codec.Fits entry) {n : Nat} (hFails : io.failsAfter = some n)
    (hStrict : n < (codec.frame entry).length) {records : List WalEntry}
    (hSub : records.Sublist log.entries) :
    Tolerated codec maxFileSize records (w.writeIo io (codec.frame entry)).2 := by
  by_cases hZero : n = 0
  · subst hZero
    refine .inl ⟨log, ?_, ?_, hSub⟩
    · simpa [WalWriter.writeIo, hFails] using h
    · simpa [WalWriter.writeIo, hFails] using hCount
  · obtain ⟨front, entries, rfl, -⟩ := h.last
    have hTorn : Torn codec ((codec.frame entry).take n) := by
      refine ⟨entry, hFits, List.take_prefix _ _, fun hAll => ?_⟩
      have hLength := congrArg List.length hAll
      rw [List.length_take] at hLength
      omega
    have hLastFits : ∀ e ∈ entries, codec.Fits e :=
      (h.wellFormed.segments _ (List.mem_append_right _ (List.mem_singleton.mpr rfl))).1
    refine .inr ⟨?_, ?_, front ++ [⟨w.seq, entries, (codec.frame entry).take n⟩],
      h.writeIo_dir hFails, h.replaceLast rfl ⟨hLastFits, .inr hTorn⟩, ?_, by simpa using hSub⟩
    · simp only [WalWriter.writeIo, hFails, List.length_take]
      omega
    · simpa [WalWriter.writeIo, hFails] using ⟨h.config, h.queue⟩
    · intro segment hs
      rw [List.dropLast_concat] at hs
      exact h.whole segment (by simp [hs])

/-- A record whose bytes do not all reach the file: the append fails. -/
theorem WalWriter.Logs.appendEncodedIo_failed (h : w.Logs codec maxFileSize log)
    (hCount : w.cursor = w.segmentBytes) {c : FaultyCall codec} (hFits : codec.Fits c.call.entry)
    (hWrites : ¬ c.io.Writes w (codec.frame c.call.entry).length) {records : List WalEntry}
    (hSub : records.Sublist log.entries) :
    ∃ w', w.appendEncodedIo c.io (codec.frame c.call.entry) = (.error (.io .other), w') ∧
      Tolerated codec maxFileSize records w' := by
  have hFailed : c.io.failsAfter ≠ none → ∃ n, c.io.failsAfter = some n :=
    Option.ne_none_iff_exists'.mp
  unfold WalWriter.appendEncodedIo
  split
  · next hRotates =>
    by_cases hRotated : c.io.rotated = true
    · obtain ⟨n, hn⟩ := hFailed fun hNone => hWrites ⟨fun _ => hRotated, hNone⟩
      rw [if_pos hRotated]
      refine ⟨_, ?_, h.rotate.writeIo_tolerated rfl hFits hn (c.strict n hn) (by simpa using hSub)⟩
      simp [WalWriter.writeIo, hn]
    · rw [if_neg hRotated]
      exact ⟨w, rfl, .inl ⟨log, h, hCount, hSub⟩⟩
  · next hStays =>
    obtain ⟨n, hn⟩ := hFailed fun hNone => hWrites ⟨fun hRotates => absurd hRotates hStays, hNone⟩
    refine ⟨_, ?_, h.writeIo_tolerated hCount hFits hn (c.strict n hn) hSub⟩
    simp [WalWriter.writeIo, hn]

/-- One append at the end of a whole log, however far it gets. -/
theorem WalWriter.Logs.appendIo_tolerated (h : w.Logs codec maxFileSize log)
    (hCount : w.cursor = w.segmentBytes) (c : FaultyCall codec) {records : List WalEntry}
    (hSub : records.Sublist log.entries) :
    let next := w.appendIo codec c.io c.call.entry.txnId c.call.entry.record
    Tolerated codec maxFileSize
      (if next.1.isOk then records ++ [c.call.entry] else records) next.2 := by
  by_cases hFits : codec.Fits c.call.entry
  · rw [h.toInSession.appendIo_fits hFits]
    by_cases hWrites : c.io.Writes w (codec.frame c.call.entry).length
    · rw [WalWriter.appendEncodedIo_of_writes hWrites]
      have hAligned : w.Aligned codec log := ⟨h.toAtEnd, hCount.symm⟩
      obtain ⟨log', hEnd, hGrows⟩ := hAligned.append hFits
      refine .inl ⟨log', ⟨hEnd.toAtEnd, h.toInSession.append _, fun s hs => ?_⟩, hEnd.count.symm, ?_⟩
      · exact (hGrows.fresh s hs).elim (h.whole s) id
      · rw [hGrows.entries]
        exact hSub.append (List.Sublist.refl _)
    · obtain ⟨w', hEq, hTolerated⟩ := h.appendEncodedIo_failed hCount hFits hWrites hSub
      rw [hEq]
      exact hTolerated
  · obtain ⟨e, hEq⟩ := @InSession.appendIo_refused codec maxFileSize w c.io h.toInSession _ hFits
    rw [hEq]
    exact .inl ⟨log, h, hCount, hSub⟩

theorem Tolerated.mono {records fewer : List WalEntry} (h : Tolerated codec maxFileSize records w)
    (hSub : fewer.Sublist records) : Tolerated codec maxFileSize fewer w := by
  rcases h with ⟨log, hLogs, hCount, hLog⟩ | ⟨hCount, hSession, log, hDir, hFormed, hClean, hLog⟩
  · exact .inl ⟨log, hLogs, hCount, hSub.trans hLog⟩
  · exact .inr ⟨hCount, hSession, log, hDir, hFormed, hClean, hSub.trans hLog⟩

/-- The step: before a cut end any call is fine, behind it only one that touches nothing. -/
theorem Tolerated.callIo {events : List (FaultyCall codec × Except Z1Error Unit)}
    (h : Tolerated codec maxFileSize (durableRecords events) w) {c : FaultyCall codec}
    (hCall : c.Undisturbing w) :
    Tolerated codec maxFileSize (durableRecords (events ++ [(c, (w.callIo c).1)])) (w.callIo c).2 := by
  obtain ⟨hNext, hOk⟩ := h.inSession.callIo_eq c
  have hRecords : durableRecords (events ++ [(c, (w.callIo c).1)]) = durableRecords events ++
      if c.call.durable && (w.callIo c).1.isOk then [c.call.entry] else [] := by
    simp only [durableRecords, List.filter_append, List.map_append]
    cases hDurable : c.call.durable && (w.callIo c).1.isOk <;> simp [hDurable]
  rw [hNext, hRecords]
  have hClean : w.cursor = w.segmentBytes → ∃ log, w.Logs codec maxFileSize log ∧
      (durableRecords events).Sublist log.entries := by
    intro hCount
    rcases h with ⟨log, hLogs, -, hSub⟩ | ⟨hDiffer, -⟩
    · exact ⟨log, hLogs, hSub⟩
    · exact absurd hCount hDiffer
  rcases hCall with hCount | hUntouched
  · obtain ⟨log, hLogs, hSub⟩ := hClean hCount
    refine (hLogs.appendIo_tolerated hCount c hSub).mono ?_
    cases hAccepted : (w.callIo c).1.isOk with
    | true =>
        rw [hOk hAccepted]
        cases c.call.durable <;> simp
    | false =>
        rw [Bool.and_false, if_neg Bool.false_ne_true, List.append_nil]
        split
        · exact List.sublist_append_left _ _
        · exact List.Sublist.refl _
  · obtain ⟨e, hEq⟩ := h.inSession.appendIo_untouched hUntouched
    have hErr : (w.callIo c).1.isOk = false := by
      by_contra hAccepted
      rw [Bool.not_eq_false] at hAccepted
      have := hOk hAccepted
      simp [hEq, Except.isOk, Except.toBool] at this
    rw [hEq, hErr]
    simpa using h

/-- In a run whose calls touch no file once a failed write has left bytes behind, replay
works in every state and reads every record whose durable append returned Ok. -/
theorem partial_record_tolerated (codec : Codec) (maxFileSize : Nat) (calls : List (FaultyCall codec))
    (hCalls : EachMeets WalWriter.callIo (fun _ w c => FaultyCall.Undisturbing w c) []
      (WalWriter.openLatest [] (sessionConfig maxFileSize)) calls) (i : Nat) :
    let run := runs WalWriter.callIo (WalWriter.openLatest [] (sessionConfig maxFileSize))
      (calls.take i)
    ReplaysWith codec (durableRecords run.1) run.2 := by
  intro run
  obtain ⟨hAligned, hQueue, hConfig⟩ := WalWriter.openLatest_nil codec (sessionConfig maxFileSize)
  have hStart : Tolerated codec maxFileSize (@durableRecords codec [])
      (WalWriter.openLatest [] (sessionConfig maxFileSize)) :=
    .inl ⟨_, ⟨hAligned.toAtEnd, ⟨hConfig, hQueue⟩, by simp⟩, hAligned.count.symm, List.nil_sublist _⟩
  have hRun := runs_invariant
    (fun events w => Tolerated codec maxFileSize (durableRecords events) w) _
    (fun _ _ _ hTolerated hCall => hTolerated.callIo hCall) hStart (hCalls.take i)
  exact hRun.replays

/-- Part of a put reaches the file; then nothing more, or a commit. -/
def failingPut : FaultyCall Postcard.codec where
  call := .append ⟨1, .put 0 [1] (some [7])⟩
  io := { failsAfter := some 5 }
  strict := by decide

def durableCommit : FaultyCall Postcard.codec where
  call := .appendDurable ⟨1, .commit 1 1⟩

theorem cut_end_is_tolerated :
    ReplaysWith Postcard.codec [⟨1, .commit 1 1⟩]
      (runs WalWriter.callIo (WalWriter.openLatest [] (sessionConfig 1000))
        [durableCommit, failingPut]).2 := by
  refine partial_record_tolerated Postcard.codec 1000 [durableCommit, failingPut] ?_ 2
  exact ⟨.inl (by decide +kernel), .inl (by decide +kernel), trivial⟩

/-- A commit behind part of a put: its append returned Ok, and replay returns an error. -/
theorem commit_behind_cut_put_lost :
    durableRecords (runs WalWriter.callIo (WalWriter.openLatest [] (sessionConfig 1000))
        [failingPut, durableCommit]).1 = [⟨1, .commit 1 1⟩] ∧
      ¬ ReplaysWith Postcard.codec [⟨1, .commit 1 1⟩]
        (runs WalWriter.callIo (WalWriter.openLatest [] (sessionConfig 1000))
          [failingPut, durableCommit]).2 := by
  refine ⟨by decide +kernel, ?_⟩
  rintro ⟨read, hRead, -⟩
  have hErr : (replayAll Postcard.codec
      (runs WalWriter.callIo (WalWriter.openLatest [] (sessionConfig 1000))
        [failingPut, durableCommit]).2.dir).toOption = none := by
    decide +kernel
  rw [hRead] at hErr
  cases hErr

end

end Z1Kv
