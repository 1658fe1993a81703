import Mathlib.Data.List.DropRight
import Mathlib.Data.List.Forall2
import Mathlib.Logic.Function.Basic
import Z1Kv.Library.Runs
import Z1Kv.Wal.Sessions

/-! What of the log is on the disk for good. The writer is followed together with
the length each segment file had when it was last synced; a crash may cut every file
down to that length and not below it. -/
namespace Z1Kv

def WalDir.lengthOf (dir : WalDir) (seq : Nat) : Nat :=
  ((dir.find? (·.1 = seq)).map fun file => file.2.length).getD 0

structure SyncedWriter where
  writer : WalWriter
  /-- The length of each segment file at its last `sync_all`. -/
  synced : Nat → Nat := fun _ => 0

namespace SyncedWriter

/-- `sync_all` on the open handle. -/
def sync (s : SyncedWriter) : SyncedWriter :=
  { s with synced := Function.update s.synced s.writer.seq (s.writer.dir.lengthOf s.writer.seq) }

/-- The old segment is synced before the next one is created. -/
def rotate (s : SyncedWriter) : SyncedWriter :=
  { writer := s.writer.rotate
    synced := Function.update s.sync.synced (s.writer.seq + 1) 0 }

def write (s : SyncedWriter) (bytes : Bytes) : SyncedWriter :=
  { s with writer := s.writer.write bytes }

def appendEncoded (s : SyncedWriter) (bytes : Bytes) : SyncedWriter :=
  if s.writer.Rotates bytes.length then s.rotate.write bytes else s.write bytes

section
variable (codec : Codec)

def append (s : SyncedWriter) (txnId : TxnId) (record : WalRecord) :
    Except Z1Error Unit × SyncedWriter :=
  if s.writer.config.enabled = false then (.ok (), s)
  else
    match codec.encodeRecord ⟨txnId, record⟩ with
    | .error e => (.error e, s)
    | .ok bytes => (.ok (), s.appendEncoded bytes)

def appendAll (s : SyncedWriter) : List WalEntry → Except Z1Error Unit × SyncedWriter
  | [] => (.ok (), s)
  | entry :: rest =>
      match codec.encodeRecord entry with
      | .error e => (.error e, s)
      | .ok bytes => (s.appendEncoded bytes).appendAll rest

def flushQueue (s : SyncedWriter) : Except Z1Error Unit × SyncedWriter :=
  if s.writer.queue = [] then (.ok (), s)
  else
    match appendAll codec { s with writer := { s.writer with queue := [] } } s.writer.queue with
    | (.ok (), s) => (.ok (), s.sync)
    | (.error e, s) => (.error e, s)

def appendDurable (s : SyncedWriter) (txnId : TxnId) (record : WalRecord) :
    Except Z1Error Unit × SyncedWriter :=
  if s.writer.config.enabled = false then (.ok (), s)
  else
    match s.writer.config.syncPolicy with
    | .groupCommitStrict =>
        let batchSize := match s.writer.config.groupCommit with
          | some group => group.maxBatchSize
          | none => 100
        let s := { s with writer := { s.writer with queue := s.writer.queue ++ [⟨txnId, record⟩] } }
        if s.writer.queue.length ≥ batchSize then s.flushQueue codec else (.ok (), s)
    | .syncEach | .flushOnly =>
        match codec.encodeRecord ⟨txnId, record⟩ with
        | .error e => (.error e, s)
        | .ok bytes => (.ok (), (s.appendEncoded bytes).sync)

def call (s : SyncedWriter) : WalCall → Except Z1Error Unit × SyncedWriter
  | .append entry => s.append codec entry.txnId entry.record
  | .appendDurable entry => s.appendDurable codec entry.txnId entry.record

end

/-- Every file keeps a beginning that is not shorter than its synced length. -/
def Crashes (s : SyncedWriter) (dir : WalDir) : Prop :=
  List.Forall₂ (fun file cut => cut.1 = file.1 ∧ cut.2 <+: file.2 ∧ s.synced file.1 ≤ cut.2.length)
    s.writer.dir dir

variable {codec : Codec}

theorem appendEncoded_writer (s : SyncedWriter) (bytes : Bytes) :
    (s.appendEncoded bytes).writer = s.writer.appendEncoded bytes := by
  unfold appendEncoded WalWriter.appendEncoded
  split <;> rfl

theorem appendAll_writer (s : SyncedWriter) (entries : List WalEntry) :
    (s.appendAll codec entries).1 = (s.writer.appendAll codec entries).1 ∧
      (s.appendAll codec entries).2.writer = (s.writer.appendAll codec entries).2 := by
  induction entries generalizing s with
  | nil => exact ⟨rfl, rfl⟩
  | cons entry rest ih =>
      rw [appendAll, WalWriter.appendAll]
      cases codec.encodeRecord entry with
      | error e => exact ⟨rfl, rfl⟩
      | ok bytes =>
          simp only [← appendEncoded_writer]
          exact ih _

theorem flushQueue_writer (s : SyncedWriter) :
    (s.flushQueue codec).1 = (s.writer.flushQueue codec).1 ∧
      (s.flushQueue codec).2.writer = (s.writer.flushQueue codec).2 := by
  unfold flushQueue WalWriter.flushQueue
  split
  · exact ⟨rfl, rfl⟩
  · have hAll := @appendAll_writer codec
      { s with writer := { s.writer with queue := [] } } s.writer.queue
    rw [← hAll.1, ← hAll.2]
    rcases appendAll codec { s with writer := { s.writer with queue := [] } } s.writer.queue with
      ⟨e | _, last⟩
    · exact ⟨rfl, rfl⟩
    · exact ⟨rfl, rfl⟩

/-- Following the synced lengths does not change the writer. -/
theorem call_writer (s : SyncedWriter) (call : WalCall) :
    (s.call codec call).2.writer = s.writer.call codec call := by
  cases call with
  | append entry =>
      simp only [SyncedWriter.call, WalWriter.call, append, WalWriter.append]
      split
      · rfl
      · cases codec.encodeRecord ⟨entry.txnId, entry.record⟩ with
        | error e => rfl
        | ok bytes => exact appendEncoded_writer s bytes
  | appendDurable entry =>
      simp only [SyncedWriter.call, WalWriter.call, appendDurable, WalWriter.appendDurable]
      split
      · rfl
      · cases s.writer.config.syncPolicy with
        | groupCommitStrict =>
            cases s.writer.config.groupCommit with
            | none =>
                simp only
                split
                · exact (flushQueue_writer _).2
                · rfl
            | some group =>
                simp only
                split
                · exact (flushQueue_writer _).2
                · rfl
        | _ =>
            cases codec.encodeRecord ⟨entry.txnId, entry.record⟩ with
            | error e => rfl
            | ok bytes => exact appendEncoded_writer s bytes

end SyncedWriter

/-- The calls of a run that returned Ok. -/
def acceptedCalls (events : List (WalCall × Except Z1Error Unit)) : List WalCall :=
  (events.filter fun event => event.2.isOk).map Prod.fst

/-- The calls up to and including the last durable one. -/
def upToDurable (calls : List WalCall) : List WalCall :=
  calls.rdropWhile fun call => !call.durable

theorem upToDurable_concat (calls : List WalCall) (call : WalCall) :
    upToDurable (calls ++ [call]) =
      if call.durable then calls ++ [call] else upToDurable calls := by
  rw [upToDurable, List.rdropWhile_concat]
  cases call.durable <;> rfl

section Session
variable {codec : Codec} {maxFileSize : Nat}

/-- Between the calls of a session: the log holds these entries, its earlier segments
are synced in full, and the last one as far as the covered entries reach into it. -/
structure SyncedUpTo (codec : Codec) (maxFileSize : Nat) (entries covered : List WalEntry)
    (s : SyncedWriter) (front : SegmentLog) (kept pending : List WalEntry) : Prop where
  inSession : s.writer.InSession maxFileSize
  atEnd : s.writer.AtEnd codec (front ++ [{ seq := s.writer.seq, entries := kept ++ pending }])
  whole : ∀ segment ∈ front, segment.torn = []
  frontSynced : ∀ segment ∈ front, s.synced segment.seq = (segment.bytes codec).length
  lastSynced : s.synced s.writer.seq = (codec.frames kept).length
  entries_eq : entries = front.entries ++ kept ++ pending
  covered_kept : covered <+: front.entries ++ kept

/-- Entries whose bytes are before the cut are whole records. -/
theorem kept_wholeRecords {kept pending : List WalEntry} {length : Nat}
    (h : (codec.frames kept).length ≤ length) :
    kept <+: wholeRecords codec length (kept ++ pending) := by
  induction kept generalizing length with
  | nil => exact List.nil_prefix
  | cons entry kept ih =>
      rw [Codec.frames_cons, List.length_append] at h
      rw [List.cons_append, wholeRecords, if_pos (by omega), List.prefix_cons_inj]
      exact ih (by omega)

namespace SyncedUpTo
variable {entries covered : List WalEntry} {s : SyncedWriter} {front : SegmentLog}
  {kept pending : List WalEntry}

theorem ascending (h : SyncedUpTo codec maxFileSize entries covered s front kept pending) :
    ∀ segment ∈ front, segment.seq < s.writer.seq := by
  intro segment hs
  have hAscending := List.pairwise_append.mp h.atEnd.wellFormed.ascending
  exact hAscending.2.2 segment hs { seq := s.writer.seq, entries := kept ++ pending } (by simp)

theorem lengthOf_last (h : SyncedUpTo codec maxFileSize entries covered s front kept pending) :
    s.writer.dir.lengthOf s.writer.seq = (codec.frames (kept ++ pending)).length := by
  have hFront : (SegmentLog.dir codec front).find? (·.1 = s.writer.seq) = none := by
    refine List.find?_eq_none.mpr fun file hFile => ?_
    obtain ⟨segment, hs, rfl⟩ := List.mem_map.mp hFile
    simpa using (h.ascending segment hs).ne
  rw [WalDir.lengthOf, h.atEnd.dir, SegmentLog.dir_append, List.find?_append, hFront]
  simp [SegmentLog.dir, Segment.bytes]

theorem call_eq (h : SyncedUpTo codec maxFileSize entries covered s front kept pending)
    (call : WalCall) :
    (codec.Fits call.entry ∧ (s.call codec call).1 = .ok () ∧ (s.call codec call).2 =
        if call.durable then (s.appendEncoded (codec.frame call.entry)).sync
        else s.appendEncoded (codec.frame call.entry)) ∨
      ¬ codec.Fits call.entry ∧ (s.call codec call).1.isOk = false ∧ (s.call codec call).2 = s := by
  by_cases hFits : codec.Fits call.entry
  · refine .inl ⟨hFits, ?_⟩
    have hEncode := codec.encodeRecord_of_fits hFits
    cases call with
    | append entry =>
        simp only [WalCall.entry] at hEncode
        simp [SyncedWriter.call, SyncedWriter.append, h.inSession.config, sessionConfig, hEncode,
          WalCall.entry, WalCall.durable]
    | appendDurable entry =>
        simp only [WalCall.entry] at hEncode
        simp [SyncedWriter.call, SyncedWriter.appendDurable, h.inSession.config, sessionConfig,
          WalConfig.syncPolicy, hEncode, WalCall.entry, WalCall.durable]
  · refine .inr ⟨hFits, ?_⟩
    have hEncode := codec.encodeRecord_refused hFits
    cases call with
    | append entry =>
        simp only [WalCall.entry] at hEncode
        simp [SyncedWriter.call, SyncedWriter.append, h.inSession.config, sessionConfig, hEncode,
          Except.isOk, Except.toBool]
    | appendDurable entry =>
        simp only [WalCall.entry] at hEncode
        simp [SyncedWriter.call, SyncedWriter.appendDurable, h.inSession.config, sessionConfig,
          WalConfig.syncPolicy, hEncode, Except.isOk, Except.toBool]

theorem opened (codec : Codec) (maxFileSize : Nat) :
    SyncedUpTo codec maxFileSize [] []
      { writer := WalWriter.openLatest [] (sessionConfig maxFileSize) } [] [] [] := by
  obtain ⟨hAligned, hQueue, hConfig⟩ := WalWriter.openLatest_nil codec (sessionConfig maxFileSize)
  exact ⟨⟨hConfig, hQueue⟩, hAligned.toAtEnd, by simp, by simp, rfl, rfl, List.nil_prefix⟩

/-- A sync of the open segment covers everything in the log. -/
theorem sync (h : SyncedUpTo codec maxFileSize entries covered s front kept pending) :
    SyncedUpTo codec maxFileSize entries entries s.sync front (kept ++ pending) [] where
  inSession := h.inSession
  atEnd := by simpa [SyncedWriter.sync] using h.atEnd
  whole := h.whole
  frontSynced segment hs := by
    simp only [SyncedWriter.sync, Function.update_of_ne (h.ascending segment hs).ne]
    exact h.frontSynced segment hs
  lastSynced := by
    simp only [SyncedWriter.sync, Function.update_self, h.lengthOf_last]
  entries_eq := by simpa using h.entries_eq
  covered_kept := by
    simp only [h.entries_eq, List.append_assoc, List.prefix_rfl]

/-- A record goes behind the unsynced ones, or behind a segment that has just been
synced in full. -/
theorem append (h : SyncedUpTo codec maxFileSize entries covered s front kept pending)
    {entry : WalEntry} (hFits : codec.Fits entry) :
    ∃ front kept pending, SyncedUpTo codec maxFileSize (entries ++ [entry]) covered
      (s.appendEncoded (codec.frame entry)) front kept pending := by
  have hSession := h.inSession.append (codec.frame entry)
  rw [← s.appendEncoded_writer] at hSession
  by_cases hRotates : s.writer.Rotates (codec.frame entry).length
  · have hEnd := (h.atEnd.toHolds.append_rotates hFits hRotates).toAtEnd
    have hSeq : (s.appendEncoded (codec.frame entry)).writer.seq = s.writer.seq + 1 := by
      simp [SyncedWriter.appendEncoded, hRotates, SyncedWriter.rotate, SyncedWriter.write,
        WalWriter.rotate, WalWriter.write]
    have hSynced : (s.appendEncoded (codec.frame entry)).synced =
        Function.update s.sync.synced (s.writer.seq + 1) 0 := by
      simp [SyncedWriter.appendEncoded, hRotates, SyncedWriter.rotate, SyncedWriter.write]
    rw [← s.appendEncoded_writer, ← hSeq] at hEnd
    refine ⟨front ++ [{ seq := s.writer.seq, entries := kept ++ pending }], [], [entry], hSession,
      by simpa using hEnd, ?_, ?_, ?_, ?_, ?_⟩
    · intro segment hs
      rcases List.mem_append.mp hs with hs | hs
      · exact h.whole segment hs
      · obtain rfl := List.mem_singleton.mp hs
        rfl
    · intro segment hs
      rw [hSynced]
      rcases List.mem_append.mp hs with hs | hs
      · have hBelow := h.ascending segment hs
        rw [Function.update_of_ne (by omega), h.sync.frontSynced segment hs]
      · obtain rfl := List.mem_singleton.mp hs
        rw [Function.update_of_ne (by simp)]
        exact h.sync.lastSynced.trans (by simp [Segment.bytes])
    · rw [hSynced, hSeq, Function.update_self]
      rfl
    · rw [h.entries_eq]
      simp
    · refine h.covered_kept.trans ?_
      simp [← List.append_assoc]
  · have hEnd := h.atEnd.append_stays hFits hRotates
    have hSeq : (s.appendEncoded (codec.frame entry)).writer.seq = s.writer.seq := by
      simp [SyncedWriter.appendEncoded, hRotates, SyncedWriter.write, WalWriter.write]
    have hSynced : (s.appendEncoded (codec.frame entry)).synced = s.synced := by
      simp [SyncedWriter.appendEncoded, hRotates, SyncedWriter.write]
    rw [← s.appendEncoded_writer, ← hSeq] at hEnd
    refine ⟨front, kept, pending ++ [entry], hSession, by simpa using hEnd, h.whole, ?_, ?_, ?_,
      h.covered_kept⟩
    · rw [hSynced]
      exact h.frontSynced
    · rw [hSynced, hSeq]
      exact h.lastSynced
    · rw [h.entries_eq, List.append_assoc]

/-- A crash leaves the earlier segments whole and cuts the last one behind what is
synced of it. -/
theorem crashes (h : SyncedUpTo codec maxFileSize entries covered s front kept pending)
    {dir : WalDir} (hCrash : s.Crashes dir) :
    ∃ cut, dir = front.dir codec ++ [(s.writer.seq, cut)] ∧
      cut <+: codec.frames (kept ++ pending) ∧ (codec.frames kept).length ≤ cut.length := by
  have hDir : s.writer.dir =
      front.dir codec ++ [(s.writer.seq, codec.frames (kept ++ pending))] := by
    rw [h.atEnd.dir, SegmentLog.dir_append]
    simp [SegmentLog.dir, Segment.bytes]
  have hFront := h.frontSynced
  have hLast := h.lastSynced
  rw [SyncedWriter.Crashes, hDir] at hCrash
  clear h hDir
  induction front generalizing dir with
  | nil =>
      obtain ⟨⟨seq, cut⟩, rest, ⟨hSeq, hCut, hLength⟩, hRest, rfl⟩ :=
        List.forall₂_cons_left_iff.mp hCrash
      obtain rfl := List.forall₂_nil_left_iff.mp hRest
      simp only at hSeq hCut hLength
      subst hSeq
      exact ⟨cut, rfl, hCut, hLast ▸ hLength⟩
  | cons segment front ih =>
      obtain ⟨⟨seq, file⟩, rest, ⟨hSeq, hFile, hLength⟩, hRest, rfl⟩ :=
        List.forall₂_cons_left_iff.mp hCrash
      simp only at hSeq hFile hLength
      rw [hFront segment (by simp)] at hLength
      obtain rfl := hFile.eq_of_length_le hLength
      subst hSeq
      obtain ⟨cut, rfl, hCut⟩ := ih hRest fun s hs => hFront s (by simp [hs])
      exact ⟨cut, rfl, hCut⟩

/-- Replay of what a crash leaves reads at least what was covered. -/
theorem replay_crashed (h : SyncedUpTo codec maxFileSize entries covered s front kept pending)
    {dir : WalDir} (hCrash : s.Crashes dir) :
    dir.dropLast = s.writer.dir.dropLast ∧
      ∃ read, replayAll codec dir = .ok read ∧ covered <+: read ∧ read <+: entries := by
  obtain ⟨cut, rfl, hCut, hLength⟩ := h.crashes hCrash
  have hFits := (h.atEnd.wellFormed.segments
    { seq := s.writer.seq, entries := kept ++ pending } (by simp)).1
  have hAscending := List.pairwise_append.mp h.atEnd.wellFormed.ascending
  have hWhole := @wholeRecords_initial codec cut.length (kept ++ pending)
  obtain ⟨torn, hTake, hTorn⟩ := take_frames hFits cut.length
  rw [← List.prefix_iff_eq_take.mp hCut] at hTake
  let last : Segment := ⟨s.writer.seq, wholeRecords codec cut.length (kept ++ pending), torn⟩
  have hDir : front.dir codec ++ [(s.writer.seq, cut)] = SegmentLog.dir codec (front ++ [last]) := by
    rw [SegmentLog.dir_append]
    simp [SegmentLog.dir, Segment.bytes, last, ← hTake]
  have hWellFormed : SegmentLog.WellFormed codec (front ++ [last]) := by
    refine ⟨List.pairwise_append.mpr ⟨hAscending.1, by simp, fun a ha b hb => ?_⟩, fun a ha => ?_⟩
    · obtain rfl := List.mem_singleton.mp hb
      exact h.ascending a ha
    · rcases List.mem_append.mp ha with ha | ha
      · exact h.atEnd.wellFormed.segments a (by simp [ha])
      · obtain rfl := List.mem_singleton.mp ha
        exact ⟨fun entry hEntry => hFits entry (hWhole.subset hEntry), hTorn⟩
  have hClean : SegmentLog.Clean (front ++ [last]) := by
    intro segment hs
    rw [List.dropLast_concat] at hs
    exact h.whole segment hs
  refine ⟨?_, _, hDir ▸ replayAll_clean hWellFormed hClean, ?_, ?_⟩
  · rw [h.atEnd.dir, SegmentLog.dir_append]
    simp [SegmentLog.dir]
  · refine h.covered_kept.trans ?_
    rw [SegmentLog.entries_append]
    simpa [last] using kept_wholeRecords hLength
  · rw [h.entries_eq, SegmentLog.entries_append, List.append_assoc]
    simpa [last] using hWhole

end SyncedUpTo

theorem runSynced_upTo (codec : Codec) (maxFileSize : Nat) (calls : List WalCall) :
    let run := runs (SyncedWriter.call codec)
      { writer := WalWriter.openLatest [] (sessionConfig maxFileSize) } calls
    ∃ front kept pending, SyncedUpTo codec maxFileSize ((acceptedCalls run.1).map WalCall.entry)
      ((upToDurable (acceptedCalls run.1)).map WalCall.entry) run.2 front kept pending := by
  intro run
  have hStart : ∃ front kept pending,
      SyncedUpTo codec maxFileSize ((acceptedCalls []).map WalCall.entry)
        ((upToDurable (acceptedCalls [])).map WalCall.entry)
        { writer := WalWriter.openLatest [] (sessionConfig maxFileSize) } front kept pending :=
    ⟨[], [], [], SyncedUpTo.opened codec maxFileSize⟩
  refine runs_invariant (fun events (s : SyncedWriter) => ∃ front kept pending,
    SyncedUpTo codec maxFileSize ((acceptedCalls events).map WalCall.entry)
      ((upToDurable (acceptedCalls events)).map WalCall.entry) s front kept pending)
    (fun _ _ _ => True) ?_ hStart (EachMeets.of_forall fun _ _ => trivial)
  rintro past s call ⟨front, kept, pending, h⟩ -
  rcases h.call_eq call with ⟨hFits, hOk, hNext⟩ | ⟨-, hErr, hNext⟩
  · have hAccepted : acceptedCalls (past ++ [(call, (s.call codec call).1)]) =
        acceptedCalls past ++ [call] := by
      simp [acceptedCalls, hOk, Except.isOk, Except.toBool]
    obtain ⟨front', kept', pending', h'⟩ := h.append hFits
    rw [hAccepted, upToDurable_concat, List.map_append, hNext]
    cases call.durable with
    | true =>
        refine ⟨front', kept' ++ pending', [], ?_⟩
        simpa using h'.sync
    | false => exact ⟨front', kept', pending', by simpa using h'⟩
  · have hAccepted : acceptedCalls (past ++ [(call, (s.call codec call).1)]) =
        acceptedCalls past := by
      simp [acceptedCalls, hErr]
    rw [hAccepted, hNext]
    exact ⟨front, kept, pending, h⟩

/-- After any calls of a session on an empty directory and any crash, the earlier
segments are intact and replay reads what was accepted, in order, up to the last
durable record or beyond. -/
theorem synced_prefix_survives (codec : Codec) (maxFileSize : Nat) (calls : List WalCall)
    (dir : WalDir) :
    let run := runs (SyncedWriter.call codec)
      { writer := WalWriter.openLatest [] (sessionConfig maxFileSize) } calls
    run.2.Crashes dir →
      dir.dropLast = run.2.writer.dir.dropLast ∧
        ∃ read, replayAll codec dir = .ok read ∧
          (upToDurable (acceptedCalls run.1)).map WalCall.entry <+: read ∧
          read <+: (acceptedCalls run.1).map WalCall.entry := by
  intro run hCrash
  obtain ⟨front, kept, pending, h⟩ := runSynced_upTo codec maxFileSize calls
  exact h.replay_crashed hCrash

/-- A put that is rotated away before its commit is synced, and a put after it. -/
def rotatedCalls : List WalCall :=
  [.append ⟨1, .put 0 [1] (some [7])⟩, .appendDurable ⟨1, .commit 1 1⟩,
    .append ⟨2, .put 0 [2] (some [8])⟩]

/-- The third segment is cut inside its header. -/
def rotatedCrash : WalDir :=
  [(0, Postcard.codec.frame ⟨1, .put 0 [1] (some [7])⟩), (1, Postcard.codec.frame ⟨1, .commit 1 1⟩),
    (2, (Postcard.codec.frame ⟨2, .put 0 [2] (some [8])⟩).take 3)]

theorem rotated_put_survives :
    ∃ read, replayAll Postcard.codec rotatedCrash = .ok read ∧
      [⟨1, .put 0 [1] (some [7])⟩, ⟨1, .commit 1 1⟩] <+: read := by
  let run := runs (SyncedWriter.call Postcard.codec)
    { writer := WalWriter.openLatest [] (sessionConfig 1) } rotatedCalls
  have hCrash : run.2.Crashes rotatedCrash := by
    simp only [SyncedWriter.Crashes, rotatedCrash]
    refine .cons ?_ (.cons ?_ (.cons ?_ .nil)) <;> decide +kernel
  have hCovered : (upToDurable (acceptedCalls run.1)).map WalCall.entry =
      [⟨1, .put 0 [1] (some [7])⟩, ⟨1, .commit 1 1⟩] := by
    decide +kernel
  obtain ⟨-, read, hRead, hKept, -⟩ :=
    synced_prefix_survives Postcard.codec 1 rotatedCalls rotatedCrash hCrash
  exact ⟨read, hRead, hCovered ▸ hKept⟩

end Session

end Z1Kv
