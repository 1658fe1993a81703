import Z1Kv.Wal.Log
import Z1Kv.Wal.Postcard

/-! Several writer sessions on one directory. A session reopens the latest
segment at offset 0 while its byte count says the segment is full so far; only
a session whose first record starts a new segment leaves the old bytes alone. -/
namespace Z1Kv

/-- One call of a session. -/
inductive WalCall
  | append (entry : WalEntry)
  | appendDurable (entry : WalEntry)
  deriving DecidableEq, Repr

def WalCall.entry : WalCall → WalEntry
  | append entry => entry
  | appendDurable entry => entry

def WalCall.durable : WalCall → Bool
  | append _ => false
  | appendDurable _ => true

/-- `SyncEach` with a chosen segment size. -/
def sessionConfig (maxFileSize : Nat) : WalConfig :=
  { maxFileSize, groupCommit := some { policy := .syncEach } }

section
variable (codec : Codec)

def WalWriter.call (w : WalWriter) : WalCall → WalWriter
  | .append entry => (w.append codec entry.txnId entry.record).2
  | .appendDurable entry => (w.appendDurable codec entry.txnId entry.record).2

/-- Dropping the writer flushes a queue that is not empty. -/
def WalWriter.close (w : WalWriter) : WalDir := (w.flushQueue codec).2.dir

/-- Open the directory, make the calls, close. -/
def runSession (maxFileSize : Nat) (dir : WalDir) (calls : List WalCall) : WalDir :=
  (calls.foldl (WalWriter.call codec)
    (WalWriter.openLatest dir (sessionConfig maxFileSize))).close codec

def runSessions (maxFileSize : Nat) (dir : WalDir) (sessions : List (List WalCall)) : WalDir :=
  sessions.foldl (runSession codec maxFileSize) dir

/-- Every byte of the first directory is where it was. -/
def Preserved (old new : WalDir) : Prop :=
  ∀ file ∈ old, ∃ later ∈ new, later.1 = file.1 ∧ file.2 <+: later.2

/-- The sessions started on `dir` never touch a byte of an earlier session:
inside every session, after every number of calls, the directory at its opening
is preserved. -/
def NeverOverwrites (maxFileSize : Nat) (dir : WalDir) (sessions : List (List WalCall)) : Prop :=
  ∀ before calls rest after, sessions = before ++ (calls ++ rest) :: after →
    Preserved (runSessions codec maxFileSize dir before)
      (runSession codec maxFileSize (runSessions codec maxFileSize dir before) calls)

/-- Replay after the last session returns the records of all sessions in order,
and no append changes a byte of an earlier session. -/
def RecordsSurvive (maxFileSize : Nat) (sessions : List (List WalCall)) : Prop :=
  replayAll codec (runSessions codec maxFileSize [] sessions) =
      .ok (sessions.flatten.map WalCall.entry) ∧
    NeverOverwrites codec maxFileSize [] sessions

/-- Length of the last segment after one more record of this length. -/
def tailAfter (maxFileSize tail length : Nat) : Nat :=
  if tail + length > maxFileSize ∧ tail > 0 then length else tail + length

/-- The first call of a session, if there is one, finds an empty last segment
or does not fit into it any more. -/
def FirstRotates (maxFileSize tail : Nat) (calls : List WalCall) : Prop :=
  ∀ first ∈ calls.head?, tail = 0 ∨ maxFileSize < tail + (codec.frame first.entry).length

/-- Every session that appends something, once the last segment is not empty,
starts with a record that does not fit into that segment any more. -/
def ReopensRotate (maxFileSize : Nat) : Nat → List (List WalCall) → Prop
  | _, [] => True
  | tail, calls :: later =>
      FirstRotates codec maxFileSize tail calls ∧
      ReopensRotate maxFileSize
        (calls.foldl (fun t c => tailAfter maxFileSize t (codec.frame c.entry).length) tail) later

instance (maxFileSize tail : Nat) (calls : List WalCall) :
    Decidable (FirstRotates codec maxFileSize tail calls) :=
  inferInstanceAs (Decidable (∀ first ∈ calls.head?, _))

instance decidableReopensRotate (maxFileSize : Nat) :
    ∀ tail sessions, Decidable (ReopensRotate codec maxFileSize tail sessions)
  | _, [] => .isTrue trivial
  | tail, calls :: later =>
      have := decidableReopensRotate maxFileSize
        (calls.foldl (fun t c => tailAfter maxFileSize t (codec.frame c.entry).length) tail) later
      instDecidableAnd

end

variable {codec : Codec} {maxFileSize : Nat}

theorem WalWriter.appendEncoded_config (w : WalWriter) (bytes : Bytes) :
    (w.appendEncoded bytes).config = w.config := by
  unfold appendEncoded
  split <;> rfl

theorem WalWriter.appendEncoded_queue (w : WalWriter) (bytes : Bytes) :
    (w.appendEncoded bytes).queue = w.queue := by
  unfold appendEncoded
  split <;> rfl

/-- A writer of such a session: `SyncEach`, nothing queued. -/
structure WalWriter.InSession (w : WalWriter) (maxFileSize : Nat) : Prop where
  config : w.config = sessionConfig maxFileSize
  queue : w.queue = []

theorem WalWriter.InSession.append {w : WalWriter} (h : w.InSession maxFileSize) (bytes : Bytes) :
    (w.appendEncoded bytes).InSession maxFileSize :=
  ⟨(w.appendEncoded_config bytes).trans h.config, (w.appendEncoded_queue bytes).trans h.queue⟩

theorem WalWriter.InSession.call {w : WalWriter} (h : w.InSession maxFileSize) {call : WalCall}
    (hFits : codec.Fits call.entry) :
    w.call codec call = w.appendEncoded (codec.frame call.entry) := by
  have hEncode := codec.encodeRecord_of_fits hFits
  cases call with
  | append entry =>
      simp only [WalCall.entry] at hEncode
      simp [WalWriter.call, WalWriter.append, h.config, sessionConfig, hEncode, WalCall.entry]
  | appendDurable entry =>
      simp only [WalCall.entry] at hEncode
      simp [WalWriter.call, WalWriter.appendDurable, h.config, sessionConfig,
        WalConfig.syncPolicy, hEncode, WalCall.entry]

/-- A call whose record is over the limit leaves the writer as it was. -/
theorem WalWriter.InSession.call_refused {w : WalWriter} (h : w.InSession maxFileSize)
    {call : WalCall} (hFits : ¬ codec.Fits call.entry) :
    w.call codec call = w := by
  have hEncode := codec.encodeRecord_refused hFits
  cases call with
  | append entry =>
      simp only [WalCall.entry] at hEncode
      simp [WalWriter.call, WalWriter.append, h.config, sessionConfig, hEncode]
  | appendDurable entry =>
      simp only [WalCall.entry] at hEncode
      simp [WalWriter.call, WalWriter.appendDurable, h.config, sessionConfig, WalConfig.syncPolicy,
        hEncode]

variable (codec) in
theorem WalWriter.InSession.calls {w : WalWriter} (h : w.InSession maxFileSize)
    {calls : List WalCall} (hFits : ∀ call ∈ calls, codec.Fits call.entry) :
    (calls.foldl (WalWriter.call codec) w).InSession maxFileSize := by
  induction calls generalizing w with
  | nil => exact h
  | cons call rest ih =>
      rw [List.foldl_cons, h.call (hFits call (by simp))]
      exact ih (h.append _) fun c hc => hFits c (by simp [hc])

variable (codec) in
theorem WalWriter.InSession.flushAndSync_eq {w : WalWriter} (h : w.InSession maxFileSize) :
    w.flushAndSync codec = (.ok (), w) := by
  rw [flushAndSync, flushQueue, if_pos h.queue]

variable (codec) in
theorem WalWriter.InSession.close {w : WalWriter} (h : w.InSession maxFileSize) :
    w.close codec = w.dir := by
  simp [WalWriter.close, flushQueue, h.queue]

theorem Preserved.of_grows {old new : SegmentLog} {added : List WalEntry}
    (h : old.Grows codec new added) : Preserved (old.dir codec) (new.dir codec) := by
  intro file hf
  obtain ⟨segment, hs, rfl⟩ := List.mem_map.mp hf
  obtain ⟨later, hl, hSeq, hPrefix⟩ := h.kept segment hs
  exact ⟨_, List.mem_map_of_mem hl, hSeq, hPrefix⟩

/-- Between sessions: the directory holds this log, no record is cut, and the
last segment has this length. -/
structure Rests (codec : Codec) (dir : WalDir) (log : SegmentLog) (tail : Nat) : Prop where
  dir : dir = log.dir codec
  wellFormed : log.WellFormed codec
  whole : ∀ segment ∈ log, segment.torn = []
  lastLength : ∀ front last, log = front ++ [last] → tail = (last.bytes codec).length
  empty : log = [] → tail = 0

theorem Rests.nil : Rests codec [] [] 0 :=
  ⟨rfl, ⟨by simp, by simp⟩, by simp, by simp, fun _ => rfl⟩

theorem Rests.replay {dir : WalDir} {log : SegmentLog} {tail : Nat}
    (h : Rests codec dir log tail) : replayAll codec dir = .ok log.entries := by
  rw [h.dir]
  exact replayAll_clean h.wellFormed fun s hs => h.whole s (List.dropLast_subset _ hs)

/-- The writer's handle stands between two records of the last segment. -/
structure WalWriter.Between (codec : Codec) (w : WalWriter) (front : SegmentLog)
    (done rest : List WalEntry) : Prop
    extends w.Holds codec (front ++ [⟨w.seq, done ++ rest, []⟩]) where
  cursor : w.cursor = (codec.frames done).length
  whole : ∀ segment ∈ front, segment.torn = []

/-- What a session finds: the old log, with segment 0 created if there was
none, the handle in front of the last segment, the byte count behind it. -/
theorem Rests.opened {dir : WalDir} {log : SegmentLog} {tail : Nat}
    (h : Rests codec dir log tail) (maxFileSize : Nat) :
    let w := WalWriter.openLatest dir (sessionConfig maxFileSize)
    w.InSession maxFileSize ∧ w.segmentBytes = tail ∧
      ∃ front entries, w.Between codec front [] entries ∧
        log.Grows codec (front ++ [⟨w.seq, entries, []⟩]) [] ∧
        tail = (codec.frames entries).length ∧ (entries = [] ∨ w.dir = dir) := by
  rcases List.eq_nil_or_concat' log with rfl | ⟨front, last, rfl⟩
  · rw [h.dir, h.empty rfl]
    obtain ⟨hAligned, hQueue, hConfig⟩ :=
      WalWriter.openLatest_nil codec (sessionConfig maxFileSize)
    refine ⟨⟨hConfig, hQueue⟩, rfl, [], [], ⟨hAligned.toHolds, rfl, by simp⟩, ?_, by simp, Or.inl rfl⟩
    exact SegmentLog.grows_rotated [] _ []
  · obtain ⟨hHolds, hSeq, hCursor, hBytes, hQueue, hConfig⟩ :=
      WalWriter.openLatest_holds h.wellFormed (sessionConfig maxFileSize)
    have hTail := h.lastLength front last rfl
    have hWhole : last.torn = [] := h.whole last (by simp)
    have hLast : last = ⟨last.seq, last.entries, []⟩ := by
      cases last
      simp_all
    have hFrames : last.bytes codec = codec.frames last.entries := by simp [Segment.bytes, hWhole]
    rw [h.dir]
    refine ⟨⟨hConfig, hQueue⟩, by rw [hBytes, hTail], front, last.entries, ⟨?_, hCursor, ?_⟩, ?_, ?_,
      Or.inr hHolds.dir⟩
    · rw [hSeq, List.nil_append, ← hLast]
      exact hHolds
    · exact fun s hs => h.whole s (by simp [hs])
    · rw [hSeq, ← hLast]
      exact SegmentLog.Grows.refl _
    · rw [hTail, hFrames]

/-- What a session leaves behind when its handle is at the end. -/
theorem WalWriter.Between.rests {w : WalWriter} {front : SegmentLog} {done rest : List WalEntry}
    (h : w.Between codec front done rest) :
    Rests codec w.dir (front ++ [⟨w.seq, done ++ rest, []⟩]) (codec.frames (done ++ rest)).length := by
  refine ⟨h.dir, h.wellFormed, ?_, ?_, by simp⟩
  · intro s hs
    rcases List.mem_append.mp hs with hs | hs
    · exact h.whole s hs
    · obtain rfl := List.mem_singleton.mp hs
      rfl
  · intro front' last hLog
    obtain ⟨-, hLast⟩ := List.append_inj' hLog rfl
    obtain rfl : (⟨w.seq, done ++ rest, []⟩ : Segment) = last := by simpa using hLast
    simp [Segment.bytes]

theorem WalWriter.appendEncoded_segmentBytes (w : WalWriter) (bytes : Bytes) :
    (w.appendEncoded bytes).segmentBytes =
      tailAfter w.config.maxFileSize w.segmentBytes bytes.length := by
  by_cases h : w.Rotates bytes.length
  · have h' : w.segmentBytes + bytes.length > w.config.maxFileSize ∧ w.segmentBytes > 0 := h
    rw [tailAfter, if_pos h', appendEncoded, if_pos h]
    simp [write, rotate]
  · have h' : ¬ (w.segmentBytes + bytes.length > w.config.maxFileSize ∧ w.segmentBytes > 0) := h
    rw [tailAfter, if_neg h', appendEncoded, if_neg h]
    rfl

/-- The calls of a session on a writer that appends. -/
theorem WalWriter.Aligned.calls {w : WalWriter} {log : SegmentLog} (h : w.Aligned codec log)
    (hSession : w.InSession maxFileSize) {calls : List WalCall}
    (hFits : ∀ call ∈ calls, codec.Fits call.entry) :
    ∃ log', (calls.foldl (WalWriter.call codec) w).Aligned codec log' ∧
      log.Grows codec log' (calls.map WalCall.entry) ∧
      (calls.foldl (WalWriter.call codec) w).segmentBytes =
        calls.foldl (fun t c => tailAfter maxFileSize t (codec.frame c.entry).length)
          w.segmentBytes := by
  induction calls generalizing w log with
  | nil => exact ⟨log, h, SegmentLog.Grows.refl _, rfl⟩
  | cons call rest ih =>
      have hCall := hSession.call (hFits call (by simp))
      obtain ⟨middle, hMiddle, hGrows⟩ := h.append (hFits call (by simp))
      have hBytes := w.appendEncoded_segmentBytes (codec.frame call.entry)
      rw [hSession.config] at hBytes
      simp only [List.foldl_cons, hCall]
      obtain ⟨log', hAligned, hGrows', hTail⟩ :=
        ih hMiddle (hSession.append _) (fun c hc => hFits c (by simp [hc]))
      refine ⟨log', hAligned, hGrows.trans hGrows', ?_⟩
      rw [hTail, hBytes]
      rfl

theorem WalWriter.Aligned.between {w : WalWriter} {log : SegmentLog} (h : w.Aligned codec log)
    (hWhole : ∀ segment ∈ log, segment.torn = []) :
    ∃ front entries, log = front ++ [⟨w.seq, entries, []⟩] ∧ w.Between codec front entries [] := by
  obtain ⟨front, entries, rfl, hCursor⟩ := h.last
  refine ⟨front, entries, rfl, ⟨?_, hCursor, fun s hs => hWhole s (by simp [hs])⟩⟩
  rw [List.append_nil]
  exact h.toHolds

/-- A session whose first record rotates, or that starts on an empty segment,
adds its records to the log and keeps every byte. -/
theorem Rests.session {dir : WalDir} {log : SegmentLog} {tail : Nat}
    (h : Rests codec dir log tail) {calls : List WalCall}
    (hFits : ∀ call ∈ calls, codec.Fits call.entry)
    (hFirst : FirstRotates codec maxFileSize tail calls) :
    ∃ log', log.Grows codec log' (calls.map WalCall.entry) ∧
      Rests codec (runSession codec maxFileSize dir calls) log'
        (calls.foldl (fun t c => tailAfter maxFileSize t (codec.frame c.entry).length) tail) := by
  obtain ⟨hSession, hBytes, front, entries, hBetween, hGrows, hTail, -⟩ :=
    h.opened maxFileSize
  unfold runSession
  generalize WalWriter.openLatest dir (sessionConfig maxFileSize) = w at *
  cases calls with
  | nil =>
      refine ⟨_, hGrows, ?_⟩
      simpa [hSession.close codec, ← hTail] using hBetween.rests
  | cons call rest =>
      have hCallFits := hFits call (by simp)
      have hRestFits : ∀ c ∈ rest, codec.Fits c.entry := fun c hc => hFits c (by simp [hc])
      have hFirstCall : ∃ middle, (w.appendEncoded (codec.frame call.entry)).Aligned codec middle ∧
          SegmentLog.Grows codec (front ++ [⟨w.seq, entries, []⟩]) middle [call.entry] := by
        by_cases hZero : tail = 0
        · have hNone : entries = [] :=
            codec.frames_eq_nil.mp (List.length_eq_zero_iff.mp (by omega))
          subst hNone
          have hAligned : w.Aligned codec (front ++ [⟨w.seq, [], []⟩]) :=
            ⟨⟨hBetween.toHolds, front, [], rfl, hBetween.cursor⟩, by
              rw [hBytes, hBetween.cursor, hZero, codec.frames_nil, List.length_nil]⟩
          exact hAligned.append hCallFits
        · have hOver := (hFirst call (by simp)).resolve_left hZero
          have hRotates : w.Rotates (codec.frame call.entry).length := by
            refine ⟨?_, by omega⟩
            rw [hSession.config, hBytes]
            exact hOver
          exact ⟨_, hBetween.toHolds.append_rotates hCallFits hRotates,
            SegmentLog.grows_rotated _ _ _⟩
      obtain ⟨middle, hMiddle, hGrowsFirst⟩ := hFirstCall
      have hStep := w.appendEncoded_segmentBytes (codec.frame call.entry)
      rw [hSession.config, hBytes] at hStep
      simp only [List.foldl_cons, hSession.call hCallFits]
      have hIn := (hSession.append (codec.frame call.entry)).calls codec hRestFits
      obtain ⟨log', hAligned, hGrowsRest, hCount⟩ :=
        hMiddle.calls (hSession.append _) hRestFits
      have hAll := (hGrows.trans hGrowsFirst).trans hGrowsRest
      have hWhole : ∀ segment ∈ log', segment.torn = [] := by
        intro s hs
        rcases hAll.fresh s hs with hs | hs
        · exact h.whole s hs
        · exact hs
      obtain ⟨front', entries', rfl, hEnd⟩ := hAligned.between hWhole
      refine ⟨_, by simpa using hAll, ?_⟩
      have hRests := hEnd.rests
      rw [hIn.close codec]
      have hLength : (codec.frames (entries' ++ [])).length =
          (rest.foldl (WalWriter.call codec)
            (w.appendEncoded (codec.frame call.entry))).segmentBytes := by
        rw [hAligned.count, hEnd.cursor, List.append_nil]
      rw [hLength, hCount, hStep] at hRests
      simpa [sessionConfig] using hRests

/-- The first record of a byte string is determined by it. -/
theorem frame_append_inj {a b : WalEntry} (ha : codec.Fits a) (hb : codec.Fits b)
    {x y : Bytes} (h : codec.frame a ++ x = codec.frame b ++ y) : a = b := by
  have hRead := readOneRecord_frame a ha x
  rw [h, readOneRecord_frame b hb y] at hRead
  simp only [Except.ok.injEq, Option.some.injEq, Prod.mk.injEq] at hRead
  exact hRead.1.symm

/-- A write in front of old records that changes none of their bytes writes the
first of them once more. -/
theorem frames_prefix_overwrite {old : WalEntry} {more : List WalEntry} {entry : WalEntry}
    (hOld : codec.Fits old) (hEntry : codec.Fits entry)
    (h : codec.frames (old :: more) <+:
      Bytes.overwrite (codec.frames (old :: more)) 0 (codec.frame entry)) : entry = old := by
  obtain ⟨x, hx⟩ := h
  rw [Bytes.overwrite_zero, Codec.frames_cons, List.append_assoc] at hx
  exact (frame_append_inj hOld hEntry hx).symm

/-- Without rotation, a writer in front of old records that leaves all bytes of
its opening directory alone does not change the directory at all. -/
theorem WalWriter.Between.rewrites {w : WalWriter} {front : SegmentLog} {done more : List WalEntry}
    {old entry : WalEntry} (h : w.Between codec front done (old :: more))
    (hFits : codec.Fits entry) (hStays : ¬ w.Rotates (codec.frame entry).length)
    (hSame : Preserved w.dir (w.appendEncoded (codec.frame entry)).dir) :
    (w.appendEncoded (codec.frame entry)).Between codec front (done ++ [entry]) more ∧
      entry = old := by
  have hAscending := List.pairwise_append.mp h.wellFormed.ascending
  have hOther : ∀ file ∈ SegmentLog.dir codec front, file.1 ≠ w.seq := by
    intro file hf
    obtain ⟨segment, hs, rfl⟩ := List.mem_map.mp hf
    exact (hAscending.2.2 segment hs ⟨w.seq, done ++ old :: more, []⟩ (by simp)).ne
  have hOld : w.dir = SegmentLog.dir codec front ++
      [(w.seq, codec.frames done ++ codec.frames (old :: more))] := by
    rw [h.dir]
    simp [SegmentLog.dir, Segment.bytes]
  have hNew : (w.appendEncoded (codec.frame entry)).dir = SegmentLog.dir codec front ++
      [(w.seq, codec.frames done ++
        Bytes.overwrite (codec.frames (old :: more)) 0 (codec.frame entry))] := by
    rw [appendEncoded, if_neg hStays, write, hOld, h.cursor]
    rw [WalDir.writeAt_last hOther, Bytes.overwrite_append]
  have hPrefix : codec.frames (old :: more) <+:
      Bytes.overwrite (codec.frames (old :: more)) 0 (codec.frame entry) := by
    rw [hOld, hNew] at hSame
    obtain ⟨later, hLater, hSeq, hPrefix⟩ :=
      hSame (w.seq, codec.frames done ++ codec.frames (old :: more)) (by simp)
    rcases List.mem_append.mp hLater with hLater | hLater
    · exact absurd hSeq (hOther later hLater)
    · obtain rfl := List.mem_singleton.mp hLater
      exact (List.prefix_append_right_inj _).mp hPrefix
  have hFitsOld : codec.Fits old :=
    (h.wellFormed.segments ⟨w.seq, done ++ old :: more, []⟩ (by simp)).1 old (by simp)
  obtain rfl := frames_prefix_overwrite hFitsOld hFits hPrefix
  have hUnchanged : (w.appendEncoded (codec.frame entry)).dir = w.dir := by
    rw [hNew, hOld, Bytes.overwrite_zero, Codec.frames_cons, List.drop_left]
  have hSeq : (w.appendEncoded (codec.frame entry)).seq = w.seq := by
    simp [appendEncoded, hStays, write]
  have hLog : front ++ [⟨w.seq, done ++ entry :: more, []⟩] =
      front ++ [(⟨w.seq, (done ++ [entry]) ++ more, []⟩ : Segment)] := by simp
  refine ⟨⟨⟨?_, ?_, ?_⟩, ?_, h.whole⟩, rfl⟩
  · rw [hUnchanged, hSeq, ← hLog, h.dir]
  · rw [hSeq, ← hLog]
    exact h.wellFormed
  · rw [hSeq, ← hLog]
    exact h.below
  · simp [appendEncoded, hStays, write, h.cursor]

/-- A writer behind old records, or among old records that its session has not
changed so far. -/
def WalWriter.Tracks (codec : Codec) (w : WalWriter) (opened : WalDir) (log : SegmentLog) : Prop :=
  ∃ front done rest, log = front ++ [⟨w.seq, done ++ rest, []⟩] ∧ w.Between codec front done rest ∧
    (rest = [] ∨ w.dir = opened)

theorem WalWriter.Tracks.rests {w : WalWriter} {opened : WalDir} {log : SegmentLog}
    (h : w.Tracks codec opened log) : ∃ tail, Rests codec w.dir log tail := by
  obtain ⟨front, done, rest, rfl, hBetween, -⟩ := h
  exact ⟨_, hBetween.rests⟩

/-- One append adds at most one record to what the directory holds. -/
theorem WalWriter.Tracks.append {w : WalWriter} {opened : WalDir} {log : SegmentLog}
    (h : w.Tracks codec opened log) {entry : WalEntry} (hFits : codec.Fits entry)
    (hSame : Preserved opened (w.appendEncoded (codec.frame entry)).dir) :
    ∃ log', (w.appendEncoded (codec.frame entry)).Tracks codec opened log' ∧
      log'.entries.length ≤ log.entries.length + 1 := by
  obtain ⟨front, done, rest, rfl, hBetween, hRest⟩ := h
  have hWhole : ∀ s ∈ front ++ [(⟨w.seq, done ++ rest, []⟩ : Segment)], s.torn = [] :=
    hBetween.rests.whole
  by_cases hRotates : w.Rotates (codec.frame entry).length
  · have hAligned := hBetween.toHolds.append_rotates hFits hRotates
    have hGrows : SegmentLog.Grows codec (front ++ [⟨w.seq, done ++ rest, []⟩])
        (front ++ [⟨w.seq, done ++ rest, []⟩] ++ [⟨w.seq + 1, [entry], []⟩]) [entry] :=
      SegmentLog.grows_rotated _ (w.seq + 1) _
    obtain ⟨front', entries', hLog, hEnd⟩ := hAligned.between fun s hs =>
      (hGrows.fresh s hs).elim (hWhole s) id
    refine ⟨front ++ [⟨w.seq, done ++ rest, []⟩] ++ [⟨w.seq + 1, [entry], []⟩],
      ⟨front', entries', [], ?_, hEnd, Or.inl rfl⟩, ?_⟩
    · rw [List.append_nil]
      exact hLog
    · rw [hGrows.entries, List.length_append]
      rfl
  · cases rest with
    | nil =>
        rw [List.append_nil] at hWhole ⊢
        have hEnd : w.AtEnd codec (front ++ [⟨w.seq, done, []⟩]) :=
          ⟨by simpa using hBetween.toHolds, front, done, rfl, hBetween.cursor⟩
        have hStays := hEnd.append_stays hFits hRotates
        have hSeq : (w.appendEncoded (codec.frame entry)).seq = w.seq := by
          simp [appendEncoded, hRotates, write]
        refine ⟨front ++ [⟨w.seq, done ++ [entry], []⟩],
          ⟨front, done ++ [entry], [], by simp [hSeq], ⟨?_, ?_, hBetween.whole⟩, Or.inl rfl⟩, ?_⟩
        · rw [hSeq, List.append_nil]
          exact hStays.toHolds
        · simp [appendEncoded, hRotates, write, hBetween.cursor]
        · simp
          omega
    | cons old more =>
        have hDir := hRest.resolve_left (by simp)
        rw [← hDir] at hSame
        obtain ⟨hNext, rfl⟩ := hBetween.rewrites hFits hRotates hSame
        have hSeq : (w.appendEncoded (codec.frame entry)).seq = w.seq := by
          simp [appendEncoded, hRotates, write]
        refine ⟨front ++ [⟨w.seq, done ++ [entry] ++ more, []⟩],
          ⟨front, done ++ [entry], more, by rw [hSeq], hNext, Or.inr ?_⟩, by simp⟩
        rw [hNext.dir, hSeq, ← hDir, hBetween.dir]
        simp

/-- The calls of a session that keeps the directory of its opening add at most
one record each. -/
theorem WalWriter.Tracks.calls {w : WalWriter} {opened : WalDir} {log : SegmentLog}
    (h : w.Tracks codec opened log) (hSession : w.InSession maxFileSize) {calls : List WalCall}
    (hFits : ∀ call ∈ calls, codec.Fits call.entry)
    (hSame : ∀ some rest, calls = some ++ rest →
      Preserved opened (some.foldl (WalWriter.call codec) w).dir) :
    ∃ log', (calls.foldl (WalWriter.call codec) w).Tracks codec opened log' ∧
      log'.entries.length ≤ log.entries.length + calls.length := by
  induction calls generalizing w log with
  | nil => exact ⟨log, h, le_rfl⟩
  | cons call rest ih =>
      have hCall := hSession.call (hFits call (by simp))
      have hFirst := hSame [call] rest rfl
      simp only [List.foldl_cons, List.foldl_nil, hCall] at hFirst
      obtain ⟨middle, hMiddle, hCount⟩ := h.append (hFits call (by simp)) hFirst
      simp only [List.foldl_cons, hCall]
      obtain ⟨log', hTracks, hCount'⟩ := ih hMiddle (hSession.append _)
        (fun c hc => hFits c (by simp [hc])) (fun some later hSplit => by
          have hNext := hSame (call :: some) later (by rw [hSplit]; rfl)
          simpa [hCall] using hNext)
      refine ⟨log', hTracks, ?_⟩
      simp only [List.length_cons]
      omega

/-- A session that keeps the bytes of its opening adds at most one record for
each call, and one record less if its first call does not rotate. -/
theorem Rests.session_count {dir : WalDir} {log : SegmentLog} {tail : Nat}
    (h : Rests codec dir log tail) {calls : List WalCall}
    (hFits : ∀ call ∈ calls, codec.Fits call.entry)
    (hSame : ∀ some rest, calls = some ++ rest →
      Preserved dir (runSession codec maxFileSize dir some)) :
    ∃ log' tail', Rests codec (runSession codec maxFileSize dir calls) log' tail' ∧
      log'.entries.length ≤ log.entries.length + calls.length ∧
      (¬ FirstRotates codec maxFileSize tail calls →
        log'.entries.length < log.entries.length + calls.length) := by
  obtain ⟨hSession, hBytes, front, entries, hBetween, hGrows, hTail, hDir⟩ :=
    h.opened maxFileSize
  unfold runSession at *
  generalize WalWriter.openLatest dir (sessionConfig maxFileSize) = w at *
  have hLength : log.entries.length = (front.entries ++ entries).length := by
    have hSame := hGrows.entries
    simp only [SegmentLog.entries_append, SegmentLog.entries_cons, SegmentLog.entries_nil,
      List.append_nil] at hSame
    rw [hSame]
  have hKept : ∀ some rest, calls = some ++ rest →
      Preserved dir (some.foldl (WalWriter.call codec) w).dir := by
    intro some rest hSplit
    have hIn := hSession.calls codec fun c (hc : c ∈ some) => hFits c (by simp [hSplit, hc])
    rw [← hIn.close codec]
    exact hSame some rest hSplit
  rw [(hSession.calls codec hFits).close codec, hLength]
  by_cases hFirst : FirstRotates codec maxFileSize tail calls
  · have hTracks : w.Tracks codec dir (front ++ [⟨w.seq, entries, []⟩]) :=
      ⟨front, [], entries, rfl, hBetween, hDir⟩
    obtain ⟨log', hEnd, hCount⟩ := hTracks.calls hSession hFits hKept
    obtain ⟨tail', hRests⟩ := hEnd.rests
    refine ⟨log', tail', hRests, by simpa using hCount, fun hNot => absurd hFirst hNot⟩
  · obtain ⟨call, rest, rfl, hNonempty, hRoom⟩ : ∃ call rest, calls = call :: rest ∧ tail ≠ 0 ∧
        tail + (codec.frame call.entry).length ≤ maxFileSize := by
      cases calls with
      | nil => simp [FirstRotates] at hFirst
      | cons call rest =>
          refine ⟨call, rest, rfl, ?_⟩
          simpa [FirstRotates] using hFirst
    cases entries with
    | nil => exact absurd (by simpa using hTail) hNonempty
    | cons old more =>
        have hCall := hSession.call (hFits call (by simp))
        have hStays : ¬ w.Rotates (codec.frame call.entry).length := by
          rintro ⟨hOver, -⟩
          rw [hSession.config, hBytes] at hOver
          exact absurd hOver (Nat.not_lt.mpr hRoom)
        have hDir := hDir.resolve_left (by simp)
        have hOne := hKept [call] rest rfl
        simp only [List.foldl_cons, List.foldl_nil, hCall] at hOne
        obtain ⟨hNext, hEntry⟩ :=
          hBetween.rewrites (hFits call (by simp)) hStays (by rw [hDir]; exact hOne)
        have hSeq : (w.appendEncoded (codec.frame call.entry)).seq = w.seq := by
          simp [WalWriter.appendEncoded, hStays, WalWriter.write]
        have hUnchanged : (w.appendEncoded (codec.frame call.entry)).dir = dir := by
          rw [hNext.dir, hSeq, ← hDir, hBetween.dir, hEntry]
          simp
        have hTracks : (w.appendEncoded (codec.frame call.entry)).Tracks codec dir
            (front ++ [⟨w.seq, old :: more, []⟩]) :=
          ⟨front, [old], more, by rw [hSeq]; rfl, by simpa [hEntry] using hNext, Or.inr hUnchanged⟩
        obtain ⟨log', hEnd, hCount⟩ := hTracks.calls (hSession.append _)
          (fun c (hc : c ∈ rest) => hFits c (by simp [hc])) (fun some later hSplit => by
            have hNext := hKept (call :: some) later (by rw [hSplit]; rfl)
            simpa [hCall] using hNext)
        obtain ⟨tail', hRests⟩ := hEnd.rests
        rw [List.foldl_cons, hCall]
        refine ⟨log', tail', hRests, ?_, fun _ => ?_⟩ <;>
        · simp only [SegmentLog.entries_append, SegmentLog.entries_cons, SegmentLog.entries_nil,
            List.append_nil] at hCount
          simp only [List.length_cons] at hCount ⊢
          omega

theorem NeverOverwrites.later {dir : WalDir} {calls : List WalCall} {later : List (List WalCall)}
    (h : NeverOverwrites codec maxFileSize dir (calls :: later)) :
    NeverOverwrites codec maxFileSize (runSession codec maxFileSize dir calls) later := by
  intro before some rest after hSplit
  exact h (calls :: before) some rest after (by rw [hSplit]; rfl)

theorem NeverOverwrites.first {dir : WalDir} {calls : List WalCall} {later : List (List WalCall)}
    (h : NeverOverwrites codec maxFileSize dir (calls :: later)) (some rest : List WalCall)
    (hSplit : calls = some ++ rest) : Preserved dir (runSession codec maxFileSize dir some) :=
  h [] some rest later (by rw [hSplit]; rfl)

theorem Rests.sessions_count {dir : WalDir} {log : SegmentLog} {tail : Nat}
    (h : Rests codec dir log tail) {sessions : List (List WalCall)}
    (hFits : ∀ calls ∈ sessions, ∀ call ∈ calls, codec.Fits call.entry)
    (hSame : NeverOverwrites codec maxFileSize dir sessions) :
    ∃ log' tail', Rests codec (runSessions codec maxFileSize dir sessions) log' tail' ∧
      log'.entries.length ≤ log.entries.length + sessions.flatten.length := by
  induction sessions generalizing dir log tail with
  | nil => exact ⟨log, tail, h, le_rfl⟩
  | cons calls later ih =>
      obtain ⟨middle, tail', hRests, hCount, -⟩ :=
        h.session_count (hFits calls (by simp)) hSame.first
      obtain ⟨log', tail'', hEnd, hCount'⟩ :=
        ih hRests (fun c hc => hFits c (by simp [hc])) hSame.later
      refine ⟨log', tail'', hEnd, ?_⟩
      rw [List.flatten_cons, List.length_append]
      omega

/-- Sessions that keep all bytes and lose no record rotate first. -/
theorem Rests.reopensRotate {dir : WalDir} {log : SegmentLog} {tail : Nat}
    (h : Rests codec dir log tail) {sessions : List (List WalCall)}
    (hFits : ∀ calls ∈ sessions, ∀ call ∈ calls, codec.Fits call.entry)
    (hSame : NeverOverwrites codec maxFileSize dir sessions) {all : List WalEntry}
    (hReplay : replayAll codec (runSessions codec maxFileSize dir sessions) = .ok all)
    (hAll : all.length = log.entries.length + sessions.flatten.length) :
    ReopensRotate codec maxFileSize tail sessions := by
  induction sessions generalizing dir log tail with
  | nil => trivial
  | cons calls later ih =>
      have hLaterFits : ∀ calls ∈ later, ∀ call ∈ calls, codec.Fits call.entry :=
        fun c hc => hFits c (by simp [hc])
      rw [List.flatten_cons, List.length_append] at hAll
      have hFirst : FirstRotates codec maxFileSize tail calls := by
        by_contra hNot
        obtain ⟨middle, tail', hRests, -, hLess⟩ :=
          h.session_count (hFits calls (by simp)) hSame.first
        obtain ⟨log', tail'', hEnd, hCount⟩ := hRests.sessions_count hLaterFits hSame.later
        have hRead := hEnd.replay
        rw [show runSessions codec maxFileSize (runSession codec maxFileSize dir calls) later =
          runSessions codec maxFileSize dir (calls :: later) from rfl, hReplay] at hRead
        obtain rfl := Except.ok.inj hRead
        have := hLess hNot
        omega
      obtain ⟨middle, hGrows, hRests⟩ := h.session (hFits calls (by simp)) hFirst
      refine ⟨hFirst, ih hRests hLaterFits hSame.later hReplay ?_⟩
      rw [hGrows.entries, List.length_append, List.length_map]
      omega

/-- Sessions that rotate first keep every byte and every record. -/
theorem Rests.sessions {dir : WalDir} {log : SegmentLog} {tail : Nat}
    (h : Rests codec dir log tail) {sessions : List (List WalCall)}
    (hFits : ∀ calls ∈ sessions, ∀ call ∈ calls, codec.Fits call.entry)
    (hRotate : ReopensRotate codec maxFileSize tail sessions) :
    NeverOverwrites codec maxFileSize dir sessions ∧
      replayAll codec (runSessions codec maxFileSize dir sessions) =
        .ok (log.entries ++ sessions.flatten.map WalCall.entry) := by
  induction sessions generalizing dir log tail with
  | nil => exact ⟨by simp [NeverOverwrites], by simpa [runSessions] using h.replay⟩
  | cons calls later ih =>
      have hHere := hFits calls (by simp)
      obtain ⟨hFirst, hLater⟩ := hRotate
      obtain ⟨middle, hGrows, hRests⟩ := h.session hHere hFirst
      obtain ⟨hNever, hReplay⟩ := ih hRests (fun c hc => hFits c (by simp [hc])) hLater
      constructor
      · intro before some rest after hSplit
        cases before with
        | nil =>
            obtain ⟨rfl, rfl⟩ : calls = some ++ rest ∧ later = after := by simpa using hSplit
            have hSome : FirstRotates codec maxFileSize tail some := by
              intro first hHead
              exact hFirst first (by cases some <;> simp_all)
            obtain ⟨log', hGrows, hRests⟩ :=
              h.session (fun c hc => hHere c (by simp [hc])) hSome
            change Preserved dir (runSession codec maxFileSize dir some)
            rw [hRests.dir, h.dir]
            exact Preserved.of_grows hGrows
        | cons session before =>
            obtain ⟨rfl, hRest⟩ : calls = session ∧ later = before ++ (some ++ rest) :: after := by
              simpa using hSplit
            exact hNever before some rest after hRest
      · rw [show runSessions codec maxFileSize dir (calls :: later) =
          runSessions codec maxFileSize (runSession codec maxFileSize dir calls) later from rfl,
          hReplay, hGrows.entries]
        simp

/-- Records survive later sessions exactly when every session rotates first. -/
theorem recordsSurvive_iff (codec : Codec) (maxFileSize : Nat) (sessions : List (List WalCall))
    (hFits : ∀ calls ∈ sessions, ∀ call ∈ calls, codec.Fits call.entry) :
    RecordsSurvive codec maxFileSize sessions ↔ ReopensRotate codec maxFileSize 0 sessions := by
  constructor
  · rintro ⟨hReplay, hNever⟩
    refine Rests.nil.reopensRotate hFits hNever hReplay ?_
    rw [List.length_map, SegmentLog.entries_nil, List.length_nil, Nat.zero_add]
  · intro hRotate
    obtain ⟨hNever, hReplay⟩ := Rests.nil.sessions hFits hRotate
    exact ⟨by simpa using hReplay, hNever⟩

/-- Two sessions of one record each, with segments of eight bytes. -/
theorem recordsSurvive_small_segments :
    let sessions := [[WalCall.appendDurable ⟨1, .rollback⟩], [WalCall.append ⟨2, .rollback⟩]]
    (∀ calls ∈ sessions, ∀ call ∈ calls, Postcard.codec.Fits call.entry) ∧
      RecordsSurvive Postcard.codec 8 sessions := by
  have hFits : ∀ calls ∈ [[WalCall.appendDurable ⟨1, .rollback⟩], [WalCall.append ⟨2, .rollback⟩]],
      ∀ call ∈ calls, Postcard.codec.Fits call.entry := by decide
  refine ⟨hFits, (recordsSurvive_iff Postcard.codec 8 _ hFits).mpr ?_⟩
  decide

/-- With the default segment size the second session writes over the first. -/
theorem reopened_session_overwrites :
    ¬ ∀ (maxFileSize : Nat) (sessions : List (List WalCall)),
      (∀ calls ∈ sessions, ∀ call ∈ calls, Postcard.codec.Fits call.entry) →
        RecordsSurvive Postcard.codec maxFileSize sessions := by
  intro h
  have hTwo := h (128 * 1024 * 1024)
    [[.appendDurable ⟨1, .rollback⟩], [.appendDurable ⟨2, .rollback⟩]] (by decide)
  exact absurd hTwo.1 (by decide +kernel)

end Z1Kv
