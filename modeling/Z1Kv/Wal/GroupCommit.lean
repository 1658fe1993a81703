import Z1Kv.Library.Runs
import Z1Kv.Wal.Faults

/-! Group commit with file operations that may fail. The queue is moved out before the
records are encoded and written one by one, so a failure in the middle of a batch drops
the failing record and those behind it. -/
namespace Z1Kv

/-- Outcomes of the file operations of one call: of each append in its order, of the
sync after them, and of the second sync of `flush_and_sync`. -/
structure FlushIo where
  appends : Nat → AppendIo := fun _ => {}
  synced : Bool := true
  resynced : Bool := true

/-- The result of a sync. -/
def syncResult (synced : Bool) : Except Z1Error Unit :=
  if synced then .ok () else .error (.io .other)

namespace WalWriter

section
variable (codec : Codec)

/-- Append queued entries one by one; the first failure ends the loop. -/
def appendAllIo (io : Nat → AppendIo) (w : WalWriter) : List WalEntry → Except Z1Error Unit × WalWriter
  | [] => (.ok (), w)
  | entry :: rest =>
      match codec.encodeRecord entry with
      | .error e => (.error e, w)
      | .ok bytes =>
          match w.appendEncodedIo (io 0) bytes with
          | (.error e, w) => (.error e, w)
          | (.ok (), w) => appendAllIo (fun k => io (k + 1)) w rest

/-- `flush_queue` with the outcomes of its file operations. -/
def flushQueueIo (io : FlushIo) (w : WalWriter) : Except Z1Error Unit × WalWriter :=
  if w.queue = [] then (.ok (), w)
  else
    match appendAllIo codec io.appends { w with queue := [] } w.queue with
    | (.error e, w) => (.error e, w)
    | (.ok (), w) => (syncResult io.synced, w)

def batchSize (w : WalWriter) : Nat :=
  match w.config.groupCommit with
  | some group => group.maxBatchSize
  | none => 100

/-- `append_durable` under any policy. -/
def appendDurableGroup (io : FlushIo) (w : WalWriter) (txnId : TxnId) (record : WalRecord) :
    Except Z1Error Unit × WalWriter :=
  if w.config.enabled = false then (.ok (), w)
  else
    match w.config.syncPolicy with
    | .groupCommitStrict =>
        let w := { w with queue := w.queue ++ [⟨txnId, record⟩] }
        if w.queue.length ≥ w.batchSize then w.flushQueueIo codec io else (.ok (), w)
    | .syncEach | .flushOnly =>
        match codec.encodeRecord ⟨txnId, record⟩ with
        | .error e => (.error e, w)
        | .ok bytes =>
            match w.appendEncodedIo (io.appends 0) bytes with
            | (.error e, w) => (.error e, w)
            | (.ok (), w) => (syncResult io.synced, w)

/-- Flush the queue; counts the records that were in it. -/
def flushPending (io : FlushIo) (w : WalWriter) : Except Z1Error Nat × WalWriter :=
  match w.flushQueueIo codec io with
  | (.error e, after) => (.error e, after)
  | (.ok (), after) => (.ok w.queue.length, after)

def flushAndSyncIo (io : FlushIo) (w : WalWriter) : Except Z1Error Unit × WalWriter :=
  match w.flushQueueIo codec io with
  | (.error e, w) => (.error e, w)
  | (.ok (), w) => (syncResult io.resynced, w)

end

end WalWriter

/-- The calls of the writer that go through the queue. -/
inductive GroupCall
  | appendDurable (entry : WalEntry) (io : FlushIo)
  | flushPending (io : FlushIo)
  | flushAndSync (io : FlushIo)

namespace GroupCall

/-- The record that a call hands in. -/
def handed? : GroupCall → Option WalEntry
  | .appendDurable entry _ => some entry
  | _ => none

def io : GroupCall → FlushIo
  | .appendDurable _ io | .flushPending io | .flushAndSync io => io

/-- The queue that a call may flush. -/
def batch (w : WalWriter) (call : GroupCall) : List WalEntry := w.queue ++ call.handed?.toList

/-- Whether a call flushes the queue. -/
def Flushes (w : WalWriter) : GroupCall → Prop
  | .appendDurable entry io => w.batchSize ≤ (batch w (.appendDurable entry io)).length
  | _ => True

end GroupCall

def groupStep (codec : Codec) (w : WalWriter) : GroupCall → Except Z1Error Unit × WalWriter
  | .appendDurable entry io => w.appendDurableGroup codec io entry.txnId entry.record
  | .flushPending io =>
      match w.flushPending codec io with
      | (.error e, w) => (.error e, w)
      | (.ok _, w) => (.ok (), w)
  | .flushAndSync io => w.flushAndSyncIo codec io

/-- The records handed in so far, each with whether its call returned Ok. -/
def handedIn (events : List (GroupCall × Except Z1Error Unit)) : List (WalEntry × Bool) :=
  events.filterMap fun event => event.1.handed?.map fun entry => (entry, event.2.toBool)

/-- Files and queue list records handed in, in their order: of those that were accepted
each one once. `before` was there at the start. -/
def KeepsAccepted (codec : Codec) (before : List WalEntry)
    (events : List (GroupCall × Except Z1Error Unit)) (w : WalWriter) : Prop :=
  ∃ files, replayAll codec w.dir = .ok files ∧
    ∃ kept : List (WalEntry × Bool), kept.Sublist (handedIn events) ∧
      kept.filter Prod.snd = (handedIn events).filter Prod.snd ∧
      before ++ kept.map Prod.fst = files ++ w.queue

/-- A call adds to the files what it takes off the queue, and no more: what it did not
write stays in the queue. -/
def LeavesUnwritten (codec : Codec) (w : WalWriter) (call : GroupCall) : Prop :=
  ∀ files, replayAll codec w.dir = .ok files →
    ∃ written, replayAll codec (groupStep codec w call).2.dir = .ok (files ++ written) ∧
      written ++ (groupStep codec w call).2.queue = call.batch w

/-- Every record of a batch is within the limit, and its bytes reach the file. -/
def WalWriter.Writable (codec : Codec) (io : Nat → AppendIo) (w : WalWriter) : List WalEntry → Prop
  | [] => True
  | entry :: rest =>
      codec.Fits entry ∧ (io 0).Writes w (codec.frame entry).length ∧
        WalWriter.Writable codec (fun k => io (k + 1)) (w.appendEncoded (codec.frame entry)) rest

/-- The condition on a call: a batch that it flushes can be written as a whole. The
syncs behind it may fail. -/
def Batches (codec : Codec) (w : WalWriter) (call : GroupCall) : Prop :=
  call.Flushes w → w.Writable codec call.io.appends (call.batch w)

/-- A writer under `GroupCommitStrict` whose handle stands at the end of a log without
cut records. -/
structure WalWriter.Groups (codec : Codec) (w : WalWriter) (log : SegmentLog) : Prop
    extends w.AtEnd codec log where
  enabled : w.config.enabled = true
  policy : w.config.syncPolicy = .groupCommitStrict
  whole : ∀ segment ∈ log, segment.torn = []

section
variable {codec : Codec} {w : WalWriter} {log : SegmentLog}

/-- A directory without segments. -/
theorem WalWriter.openLatest_groups {config : WalConfig} (hEnabled : config.enabled = true)
    (hPolicy : config.syncPolicy = .groupCommitStrict) :
    (WalWriter.openLatest [] config).Groups codec [{ seq := 0, entries := [] }] := by
  obtain ⟨hAligned, -, hConfig⟩ := WalWriter.openLatest_nil codec config
  refine ⟨hAligned.toAtEnd, by rw [hConfig, hEnabled], by rw [hConfig, hPolicy], ?_⟩
  intro segment hs
  obtain rfl := List.mem_singleton.mp hs
  rfl

theorem WalWriter.Groups.replay (h : w.Groups codec log) :
    replayAll codec w.dir = .ok log.entries := by
  rw [h.dir]
  exact replayAll_clean h.wellFormed fun s hs => h.whole s (List.dropLast_subset _ hs)

theorem WalWriter.Groups.setQueue (h : w.Groups codec log) (queue : List WalEntry) :
    { w with queue }.Groups codec log :=
  ⟨⟨⟨h.dir, h.wellFormed, h.below⟩, h.last⟩, h.enabled, h.policy, h.whole⟩

theorem WalWriter.appendEncoded_setQueue (w : WalWriter) (queue : List WalEntry) (bytes : Bytes) :
    { w with queue }.appendEncoded bytes = { w.appendEncoded bytes with queue } := by
  have hSame : { w with queue }.Rotates bytes.length ↔ w.Rotates bytes.length := Iff.rfl
  by_cases hRotates : w.Rotates bytes.length
  · rw [appendEncoded, appendEncoded, if_pos hRotates, if_pos (hSame.mpr hRotates)]
    rfl
  · rw [appendEncoded, appendEncoded, if_neg hRotates, if_neg fun h => hRotates (hSame.mp h)]
    rfl

/-- Whether a batch can be written does not depend on what waits in the queue. -/
theorem WalWriter.Writable.setQueue {io : Nat → AppendIo} {entries : List WalEntry}
    (h : w.Writable codec io entries) (queue : List WalEntry) :
    { w with queue }.Writable codec io entries := by
  induction entries generalizing w io with
  | nil => trivial
  | cons entry rest ih =>
      refine ⟨h.1, h.2.1, ?_⟩
      rw [WalWriter.appendEncoded_setQueue]
      exact ih h.2.2

theorem WalWriter.Groups.append (h : w.Groups codec log) {entry : WalEntry}
    (hFits : codec.Fits entry) :
    ∃ log', (w.appendEncoded (codec.frame entry)).Groups codec log' ∧
      log'.entries = log.entries ++ [entry] := by
  obtain ⟨log', hEnd, hGrows⟩ := h.toAtEnd.append hFits
  have hConfig := w.appendEncoded_config (codec.frame entry)
  refine ⟨log', ⟨hEnd, by rw [hConfig, h.enabled], by rw [hConfig, h.policy], ?_⟩, hGrows.entries⟩
  intro segment hs
  exact (hGrows.fresh segment hs).elim (h.whole segment) id

/-- The loop over a batch that can be written writes all of it, in order. -/
theorem WalWriter.Groups.appendAllIo (h : w.Groups codec log) {io : Nat → AppendIo}
    {entries : List WalEntry} (hWritable : w.Writable codec io entries) :
    ∃ w' log', w.appendAllIo codec io entries = (.ok (), w') ∧ w'.Groups codec log' ∧
      w'.queue = w.queue ∧ log'.entries = log.entries ++ entries := by
  induction entries generalizing w log io with
  | nil => exact ⟨w, log, rfl, h, rfl, by simp⟩
  | cons entry rest ih =>
      obtain ⟨hFits, hWrites, hRest⟩ := hWritable
      obtain ⟨middle, hMiddle, hEntries⟩ := h.append hFits
      obtain ⟨w', log', hEq, hGroups, hQueue, hLater⟩ := ih hMiddle hRest
      refine ⟨w', log', ?_, hGroups, hQueue.trans (w.appendEncoded_queue _), ?_⟩
      · rw [WalWriter.appendAllIo, codec.encodeRecord_of_fits hFits]
        dsimp only
        rw [appendEncodedIo_of_writes hWrites]
        exact hEq
      · rw [hLater, hEntries, List.append_assoc, List.singleton_append]

theorem WalWriter.Groups.flushQueueIo (h : w.Groups codec log) {io : FlushIo}
    (hWritable : w.Writable codec io.appends w.queue) :
    ∃ result w' log', w.flushQueueIo codec io = (result, w') ∧ w'.Groups codec log' ∧
      w'.queue = [] ∧ log'.entries = log.entries ++ w.queue := by
  unfold WalWriter.flushQueueIo
  split
  · next hEmpty => exact ⟨_, w, log, rfl, h, hEmpty, by rw [hEmpty, List.append_nil]⟩
  · obtain ⟨w', log', hEq, hGroups, hQueue, hEntries⟩ :=
      (h.setQueue []).appendAllIo (hWritable.setQueue [])
    rw [hEq]
    exact ⟨_, w', log', rfl, hGroups, hQueue, hEntries⟩

/-- What one call does to a writer whose batch can be written. -/
theorem WalWriter.Groups.step (h : w.Groups codec log) {call : GroupCall}
    (hBatches : Batches codec w call) :
    ∃ log' written, (groupStep codec w call).2.Groups codec log' ∧
      log'.entries = log.entries ++ written ∧
      written ++ (groupStep codec w call).2.queue = call.batch w := by
  cases call with
  | appendDurable entry io =>
      have hQueued := h.setQueue (w.queue ++ [⟨entry.txnId, entry.record⟩])
      have hOn : ¬ w.config.enabled = false := by simp [h.enabled]
      simp only [groupStep, WalWriter.appendDurableGroup, if_neg hOn, h.policy]
      split
      · next hFull =>
        have hWritable : w.Writable codec io.appends (w.queue ++ [⟨entry.txnId, entry.record⟩]) :=
          hBatches hFull
        obtain ⟨result, w', log', hEq, hGroups, hQueue, hEntries⟩ :=
          hQueued.flushQueueIo (hWritable.setQueue _)
        rw [hEq]
        exact ⟨log', _, hGroups, hEntries, by rw [hQueue, List.append_nil]; rfl⟩
      · exact ⟨log, [], hQueued, by simp, rfl⟩
  | flushPending io =>
      have hBatch : w.queue ++ [] = w.queue := List.append_nil _
      have hWritable : w.Writable codec io.appends w.queue := hBatch ▸ hBatches trivial
      obtain ⟨result, w', log', hEq, hGroups, hQueue, hEntries⟩ := h.flushQueueIo hWritable
      simp only [groupStep, WalWriter.flushPending, hEq]
      cases result <;> exact ⟨log', _, hGroups, hEntries, by rw [hQueue]; rfl⟩
  | flushAndSync io =>
      have hBatch : w.queue ++ [] = w.queue := List.append_nil _
      have hWritable : w.Writable codec io.appends w.queue := hBatch ▸ hBatches trivial
      obtain ⟨result, w', log', hEq, hGroups, hQueue, hEntries⟩ := h.flushQueueIo hWritable
      simp only [groupStep, WalWriter.flushAndSyncIo, hEq]
      cases result <;> exact ⟨log', _, hGroups, hEntries, by rw [hQueue]; rfl⟩

theorem handedIn_append (past : List (GroupCall × Except Z1Error Unit)) (call : GroupCall)
    (result : Except Z1Error Unit) :
    (handedIn (past ++ [(call, result)])).map Prod.fst =
      (handedIn past).map Prod.fst ++ call.handed?.toList := by
  cases hEntry : call.handed? <;> simp [handedIn, hEntry]

/-- Files and queue together are what was there and what was handed in since. -/
def Accounts (codec : Codec) (before : List WalEntry) (past : List (GroupCall × Except Z1Error Unit))
    (w : WalWriter) : Prop :=
  ∃ log, w.Groups codec log ∧ before ++ (handedIn past).map Prod.fst = log.entries ++ w.queue

theorem Accounts.step {before : List WalEntry} {past : List (GroupCall × Except Z1Error Unit)}
    (h : Accounts codec before past w) {call : GroupCall} (hBatches : Batches codec w call) :
    Accounts codec before (past ++ [(call, (groupStep codec w call).1)]) (groupStep codec w call).2 := by
  obtain ⟨log, hGroups, hEntries⟩ := h
  obtain ⟨log', written, hGroups', hLog, hQueue⟩ := hGroups.step hBatches
  refine ⟨log', hGroups', ?_⟩
  calc before ++ (handedIn (past ++ [(call, (groupStep codec w call).1)])).map Prod.fst
      = log.entries ++ call.batch w := by
        rw [handedIn_append, ← List.append_assoc, hEntries, List.append_assoc, GroupCall.batch]
    _ = log'.entries ++ (groupStep codec w call).2.queue := by
        rw [hLog, List.append_assoc, hQueue]

theorem Accounts.keeps {before : List WalEntry} {past : List (GroupCall × Except Z1Error Unit)}
    (h : Accounts codec before past w) : KeepsAccepted codec before past w := by
  obtain ⟨log, hGroups, hEntries⟩ := h
  exact ⟨log.entries, hGroups.replay, handedIn past, List.Sublist.refl _, rfl, hEntries⟩

theorem WalWriter.Groups.leavesUnwritten (h : w.Groups codec log) {call : GroupCall}
    (hBatches : Batches codec w call) : LeavesUnwritten codec w call := by
  obtain ⟨log', written, hGroups, hLog, hQueue⟩ := h.step hBatches
  intro files hFiles
  obtain rfl : log.entries = files := Except.ok.inj (h.replay.symm.trans hFiles)
  exact ⟨written, by rw [hGroups.replay, hLog], hQueue⟩

/-- In a run whose batches can be written, after each call the accepted records are in
the files or in the queue, once and in order, and each call leaves in the queue what it
did not write. -/
theorem groupCommit_keeps {calls : List GroupCall} (hGroups : w.Groups codec log)
    (hBatches : EachMeets (groupStep codec) (fun _ => Batches codec) [] w calls) (i : Nat) :
    let run := runs (groupStep codec) w (calls.take i)
    KeepsAccepted codec (log.entries ++ w.queue) run.1 run.2 ∧
      ∀ call, calls[i]? = some call → LeavesUnwritten codec run.2 call := by
  have hStart : Accounts codec (log.entries ++ w.queue) [] w := ⟨log, hGroups, by simp [handedIn]⟩
  have hReached := runs_invariant (Accounts codec (log.entries ++ w.queue))
    (fun _ => Batches codec) (fun _ _ _ h hMeets => h.step hMeets) hStart (hBatches.take i)
  rw [List.nil_append] at hReached
  refine ⟨hReached.keeps, fun call hCall => ?_⟩
  obtain ⟨log', hGroups', -⟩ := hReached
  exact hGroups'.leavesUnwritten (hBatches.getElem? hCall)

/-- Without failures of the files a batch can be written if all of it is within the
limit. -/
theorem WalWriter.Writable.of_fits {entries : List WalEntry} (h : ∀ entry ∈ entries, codec.Fits entry) :
    w.Writable codec (fun _ => {}) entries := by
  induction entries generalizing w with
  | nil => trivial
  | cons entry rest ih =>
      exact ⟨h entry (by simp), ⟨fun _ => rfl, rfl⟩, ih fun later hLater => h later (by simp [hLater])⟩

/-- Two records fill a batch, whose sync fails; a third one waits for the flush. -/
def threeRecords : List GroupCall :=
  [.appendDurable ⟨1, .begin⟩ {}, .appendDurable ⟨1, .rollback⟩ { synced := false },
    .appendDurable ⟨2, .begin⟩ {}, .flushPending {}]

theorem groupCommit_keeps_three :
    let run := runs (groupStep Postcard.codec)
      (WalWriter.openLatest [] { groupCommit := some { maxBatchSize := 2 } }) (threeRecords.take 3)
    run.1.map Prod.snd = [.ok (), .error (.io .other), .ok ()] ∧ run.2.queue = [⟨2, .begin⟩] ∧
      KeepsAccepted Postcard.codec [] run.1 run.2 ∧
      LeavesUnwritten Postcard.codec run.2 (.flushPending {}) := by
  have hBatches : EachMeets (groupStep Postcard.codec) (fun _ => Batches Postcard.codec) []
      (WalWriter.openLatest [] { groupCommit := some { maxBatchSize := 2 } }) threeRecords := by
    refine ⟨?_, ?_, ?_, ?_, trivial⟩
    all_goals exact fun _ => WalWriter.Writable.of_fits (by decide +kernel)
  obtain ⟨hKeeps, hLeaves⟩ := groupCommit_keeps (WalWriter.openLatest_groups rfl rfl) hBatches 3
  exact ⟨by decide +kernel, by decide +kernel, hKeeps, hLeaves (.flushPending {}) rfl⟩

/-- An oversized record at the head of the queue takes the whole queue with it. -/
theorem WalWriter.flushQueueIo_refused {io : FlushIo} {entry : WalEntry} {rest : List WalEntry}
    (hQueue : w.queue = entry :: rest) (hBig : ¬ codec.Fits entry) :
    w.flushQueueIo codec io =
      (.error (.recordTooLarge (codec.encode entry).length maxWalRecordLen), { w with queue := [] }) := by
  unfold WalWriter.flushQueueIo
  rw [if_neg (by simp [hQueue]), hQueue, WalWriter.appendAllIo, codec.encodeRecord_refused hBig]

theorem runs_refused {big small : WalEntry} (hBig : ¬ codec.Fits big) :
    runs (groupStep codec) (WalWriter.openLatest [] {})
        [.appendDurable big {}, .appendDurable small {}, .flushPending {}] =
      ([(.appendDurable big {}, .ok ()), (.appendDurable small {}, .ok ()),
        (.flushPending {}, .error (.recordTooLarge (codec.encode big).length maxWalRecordLen))],
        WalWriter.openLatest [] {}) := by
  have hFlush := @WalWriter.flushQueueIo_refused codec
    { WalWriter.openLatest [] {} with queue := [big, small] } {} big [small] rfl hBig
  have hFirst : groupStep codec (WalWriter.openLatest [] {}) (.appendDurable big {}) =
      (.ok (), { WalWriter.openLatest [] {} with queue := [big] }) := rfl
  have hSecond : groupStep codec { WalWriter.openLatest [] {} with queue := [big] }
      (.appendDurable small {}) =
      (.ok (), { WalWriter.openLatest [] {} with queue := [big, small] }) := rfl
  have hThird : groupStep codec { WalWriter.openLatest [] {} with queue := [big, small] }
      (.flushPending {}) =
      (.error (.recordTooLarge (codec.encode big).length maxWalRecordLen),
        WalWriter.openLatest [] {}) := by
    simp only [groupStep, WalWriter.flushPending, hFlush]
    rfl
  simp only [runs, hFirst, hSecond, hThird]

end

/-- The payload of a put is longer than its value. -/
theorem value_lt_of_fits {txnId : TxnId} {cf : UInt16} {key value : Bytes}
    (h : Postcard.codec.Fits ⟨txnId, .put cf key (some value)⟩) : value.length < maxWalRecordLen := by
  have hLength : value.length < (Postcard.encode ⟨txnId, .put cf key (some value)⟩).length := by
    simp only [Postcard.encode, Postcard.record, Postcard.option, Postcard.bytes,
      List.length_append, List.length_cons]
    omega
  exact lt_of_lt_of_le hLength h

/-- A put whose payload is over the limit. -/
def hugePut : WalEntry := ⟨1, .put 0 [] (some (List.replicate maxWalRecordLen 0))⟩

theorem hugePut_refused : ¬ Postcard.codec.Fits hugePut := by
  intro h
  have hShort := value_lt_of_fits h
  rw [List.length_replicate] at hShort
  exact lt_irrefl _ hShort

/-- Two records are accepted, the first of them over the limit; the flush then drops
both. -/
theorem groupCommit_drops :
    let run := runs (groupStep Postcard.codec) (WalWriter.openLatest [] {})
      [.appendDurable hugePut {}, .appendDurable ⟨2, .begin⟩ {}, .flushPending {}]
    (run.1.map fun event => event.2.toBool) = [true, true, false] ∧
      replayAll Postcard.codec run.2.dir = .ok [] ∧ run.2.queue = [] ∧
      ¬ KeepsAccepted Postcard.codec [] run.1 run.2 := by
  have hReplay : replayAll Postcard.codec (WalWriter.openLatest [] {}).dir = .ok [] := rfl
  rw [runs_refused hugePut_refused]
  refine ⟨rfl, hReplay, rfl, ?_⟩
  rintro ⟨files, hFiles, kept, -, hKept, hSame⟩
  obtain rfl : [] = files := Except.ok.inj (hReplay.symm.trans hFiles)
  have hNone : kept = [] := by
    have hQueue : (WalWriter.openLatest [] {}).queue = [] := rfl
    rw [hQueue] at hSame
    simpa using hSame
  rw [hNone] at hKept
  cases hKept

end Z1Kv
