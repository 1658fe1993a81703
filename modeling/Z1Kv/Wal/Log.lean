import Z1Kv.Wal.Replay

/-! The log a WAL directory stands for: a sequence of segments, each a list of
entries, possibly followed by the beginning of a record that a crash cut off.
The byte-level writer and reader are related to this level. -/
namespace Z1Kv

/-- The beginning of a framed record that is not the whole record. -/
def Torn (codec : Codec) (bytes : Bytes) : Prop :=
  ∃ entry, codec.Fits entry ∧ bytes <+: codec.frame entry ∧ bytes ≠ codec.frame entry

theorem Torn.nil {codec : Codec} {entry : WalEntry} (h : codec.Fits entry) : Torn codec [] :=
  ⟨entry, h, List.nil_prefix, fun he => by simpa [← he] using codec.frame_pos entry⟩

structure Segment where
  seq : Nat
  entries : List WalEntry
  torn : Bytes := []

namespace Segment
variable (codec : Codec)

def bytes (segment : Segment) : Bytes := codec.frames segment.entries ++ segment.torn

/-- Every record is within the reader's limit, and what follows them is cut off
inside one further record. -/
def WellFormed (segment : Segment) : Prop :=
  (∀ entry ∈ segment.entries, codec.Fits entry) ∧ (segment.torn = [] ∨ Torn codec segment.torn)

end Segment

abbrev SegmentLog := List Segment

namespace SegmentLog

def entries (log : SegmentLog) : List WalEntry := log.flatMap Segment.entries

/-- The directory that holds the segments of this log. -/
def dir (codec : Codec) (log : SegmentLog) : WalDir :=
  log.map fun segment => (segment.seq, segment.bytes codec)

structure WellFormed (codec : Codec) (log : SegmentLog) : Prop where
  ascending : log.Pairwise (·.seq < ·.seq)
  segments : ∀ segment ∈ log, segment.WellFormed codec

@[simp] theorem entries_nil : entries [] = [] := rfl

@[simp] theorem entries_cons (segment : Segment) (log : SegmentLog) :
    entries (segment :: log) = segment.entries ++ entries log := rfl

@[simp] theorem entries_append (first second : SegmentLog) :
    entries (first ++ second) = entries first ++ entries second := by
  simp [entries]

@[simp] theorem dir_append (codec : Codec) (first second : SegmentLog) :
    dir codec (first ++ second) = dir codec first ++ dir codec second := by
  simp [dir]

end SegmentLog

section Reading
variable {codec : Codec}

/-- A cut record is reported as such, and the reader's peek agrees. -/
theorem readOneRecord_torn {bytes : Bytes} (h : Torn codec bytes) (hNe : bytes ≠ []) :
    (∃ e, readOneRecord codec bytes = .error e) ∧ structurallyTruncated bytes = true := by
  obtain ⟨entry, hFits, ⟨missing, hMissing⟩, hStrict⟩ := h
  have hTotal := codec.frame_length entry
  rw [← hMissing, List.length_append] at hTotal
  have hMore : 0 < missing.length := by
    cases missing with
    | nil => exact absurd (by simpa using hMissing) hStrict
    | cons b rest => simp
  have hPos : 0 < bytes.length := List.length_pos_iff.mpr hNe
  have hLimit : (codec.encode entry).length ≤ maxWalRecordLen := hFits
  have hDeclared := declaredLen_frame entry hFits []
  rw [List.append_nil, ← hMissing, List.take_take] at hDeclared
  by_cases hShort : bytes.length < 8
  · constructor
    · refine ⟨.deserialize .truncatedHeader, ?_⟩
      have h8 : min 8 bytes.length = bytes.length := by omega
      simp only [readOneRecord, List.length_take, h8]
      rw [if_neg (by omega), if_pos (by omega)]
    · have hPadded : Bytes.value ((bytes.take 8 ++
          List.replicate (8 - (bytes.take 8).length) 0).take 4) ≤ maxWalRecordLen := by
        have hTake : bytes.take 8 = bytes := List.take_of_length_le (by omega)
        have hLe : Bytes.value (bytes.take 4) ≤ (codec.encode entry).length := by
          rw [← hDeclared, List.take_append]
          exact Bytes.value_le_value_append _ _
        rw [hTake, List.take_append, List.take_replicate, Bytes.value_append_zeros]
        omega
      simp only [structurallyTruncated, Bool.and_eq_true, Bool.or_eq_true, decide_eq_true_eq,
        Bool.not_eq_true', decide_eq_false_iff_not]
      exact ⟨Or.inl (by simp; omega), by omega⟩
  · have hHeader : (bytes.take 8).length = 8 := by simp; omega
    have hTake : ((bytes.take 8).take 4) = (bytes ++ missing).take (min 4 8) := by
      rw [List.take_take, List.take_append_of_le_length (by omega)]
    constructor
    · refine ⟨.deserialize .truncatedPayload, ?_⟩
      simp only [readOneRecord, hHeader, hTake, hDeclared, List.length_drop]
      rw [if_neg (by omega), if_neg (by simp), if_neg (by omega), if_pos (by omega)]
    · have hPadded : (bytes.take 8 ++ List.replicate (8 - (bytes.take 8).length) 0).take 4 =
          (bytes ++ missing).take (min 4 8) := by
        rw [hHeader, ← hTake]
        simp
      simp only [structurallyTruncated, hPadded, hDeclared, Bool.and_eq_true, Bool.or_eq_true,
        decide_eq_true_eq, Bool.not_eq_true', decide_eq_false_iff_not]
      exact ⟨Or.inr (by omega), by omega⟩

/-- The records of a segment that end within its first `kept` bytes. -/
def wholeRecords (codec : Codec) : Nat → List WalEntry → List WalEntry
  | _, [] => []
  | kept, entry :: rest =>
      if (codec.frame entry).length ≤ kept then
        entry :: wholeRecords codec (kept - (codec.frame entry).length) rest
      else []

theorem wholeRecords_initial (kept : Nat) (entries : List WalEntry) :
    wholeRecords codec kept entries <+: entries := by
  induction entries generalizing kept with
  | nil => exact List.nil_prefix
  | cons entry rest ih =>
      rw [wholeRecords]
      split
      · exact (List.prefix_cons_inj entry).mpr (ih _)
      · exact List.nil_prefix

/-- A cut leaves the whole records before it and the beginning of one more. -/
theorem take_frames {entries : List WalEntry} (hFits : ∀ entry ∈ entries, codec.Fits entry)
    (kept : Nat) :
    ∃ torn, (codec.frames entries).take kept =
        codec.frames (wholeRecords codec kept entries) ++ torn ∧ (torn = [] ∨ Torn codec torn) := by
  induction entries generalizing kept with
  | nil => exact ⟨[], by simp [wholeRecords], Or.inl rfl⟩
  | cons entry rest ih =>
      rw [wholeRecords, codec.frames_cons]
      split
      · next hWhole =>
        obtain ⟨torn, hTake, hTorn⟩ := ih (fun e he => hFits e (by simp [he]))
          (kept - (codec.frame entry).length)
        refine ⟨torn, ?_, hTorn⟩
        rw [List.take_append, List.take_of_length_le hWhole, hTake, codec.frames_cons, List.append_assoc]
      · next hCut =>
        refine ⟨(codec.frame entry).take kept, ?_, Or.inr ⟨entry, hFits entry (by simp),
          List.take_prefix _ _, fun hEq => ?_⟩⟩
        · rw [List.take_append_of_le_length (by omega)]
          simp
        · have hLength := congrArg List.length hEq
          rw [List.length_take] at hLength
          omega

theorem replaySegment_segment {segment : Segment} (h : segment.WellFormed codec) {isLast : Bool}
    (hTail : segment.torn = [] ∨ isLast = true) :
    replaySegment codec isLast (segment.bytes codec) = .ok segment.entries := by
  rw [Segment.bytes, replaySegment_frames isLast _ h.1]
  by_cases hTorn : segment.torn = []
  · rw [hTorn, replaySegment_nil]
    simp [Except.map]
  · obtain ⟨⟨e, hRead⟩, hPeek⟩ := readOneRecord_torn (h.2.resolve_left hTorn) hTorn
    rw [replaySegment_eq, hRead]
    simp [hTail.resolve_left hTorn, hPeek, Except.map]

theorem replayAll_dir {log : SegmentLog} (h : log.WellFormed codec) :
    replayAll codec (log.dir codec) = replaySegments codec (log.dir codec) := by
  unfold replayAll
  rw [List.Pairwise.insertionSort_eq]
  exact List.pairwise_map.mpr (h.ascending.imp fun hLt => Nat.le_of_lt hLt)

theorem SegmentLog.WellFormed.tail {segment : Segment} {log : SegmentLog}
    (h : SegmentLog.WellFormed codec (segment :: log)) : SegmentLog.WellFormed codec log :=
  ⟨h.ascending.of_cons, fun s hs => h.segments s (List.mem_cons_of_mem _ hs)⟩

/-- Only the last segment may end in a cut record. -/
def SegmentLog.Clean (log : SegmentLog) : Prop := ∀ segment ∈ log.dropLast, segment.torn = []

/-- Replay of a log reads the entries of its segments in order. -/
theorem replayAll_clean {log : SegmentLog} (h : log.WellFormed codec) (hClean : log.Clean) :
    replayAll codec (log.dir codec) = .ok log.entries := by
  rw [replayAll_dir h]
  induction log with
  | nil => rfl
  | cons segment log ih =>
      have hHere : replaySegment codec log.isEmpty (segment.bytes codec) = .ok segment.entries := by
        apply replaySegment_segment (h.segments segment (by simp))
        cases log with
        | nil => exact Or.inr rfl
        | cons next rest => exact Or.inl (hClean segment (by simp))
      have hLater : replaySegments codec (SegmentLog.dir codec log) =
          .ok (SegmentLog.entries log) := by
        apply ih h.tail
        intro s hs
        cases log with
        | nil => simp at hs
        | cons next rest => exact hClean s (by simp [hs])
      have hEmpty : (List.map (fun s : Segment => (s.seq, s.bytes codec)) log).isEmpty =
          log.isEmpty := by simp
      simp only [SegmentLog.dir, List.map_cons, replaySegments, hEmpty, hHere]
      simp only [SegmentLog.dir] at hLater
      rw [hLater]
      rfl

end Reading

section Writing
variable {codec : Codec}

theorem WalDir.create_above {dir : WalDir} {seq : Nat} (h : ∀ file ∈ dir, file.1 < seq) :
    dir.create seq = dir ++ [(seq, [])] := by
  have hBelow : dir.filter (·.1 < seq) = dir :=
    List.filter_eq_self.mpr fun file hf => by simpa using h file hf
  have hAbove : dir.filter (seq < ·.1) = [] :=
    List.filter_eq_nil_iff.mpr fun file hf => by simpa using (h file hf).le
  simp [WalDir.create, hBelow, hAbove]

theorem WalDir.writeAt_last {dir : WalDir} {seq pos : Nat} {file data : Bytes}
    (h : ∀ other ∈ dir, other.1 ≠ seq) :
    WalDir.writeAt (dir ++ [(seq, file)]) seq pos data =
      dir ++ [(seq, Bytes.overwrite file pos data)] := by
  have hSame : dir.map (fun other => if other.1 = seq then
      (seq, Bytes.overwrite other.2 pos data) else other) = dir := by
    rw [List.map_congr_left (g := id)]
    · simp
    · intro other ho
      simp [h other ho]
  simp [WalDir.writeAt, hSame]

/-- The writer's directory holds this log and its handle is on the last
segment or past it. Nothing is said about the offset of the handle. -/
structure WalWriter.Holds (codec : Codec) (w : WalWriter) (log : SegmentLog) : Prop where
  dir : w.dir = log.dir codec
  wellFormed : log.WellFormed codec
  below : ∀ segment ∈ log, segment.seq ≤ w.seq

/-- The handle stands at the end of the last segment, so a write without
rotation appends. -/
structure WalWriter.AtEnd (codec : Codec) (w : WalWriter) (log : SegmentLog) : Prop
    extends w.Holds codec log where
  last : ∃ front entries, log = front ++ [{ seq := w.seq, entries }] ∧
    w.cursor = (codec.frames entries).length

/-- The byte count is the length of the last segment as well. -/
structure WalWriter.Aligned (codec : Codec) (w : WalWriter) (log : SegmentLog) : Prop
    extends w.AtEnd codec log where
  count : w.segmentBytes = w.cursor

/-- Rotation puts the record alone into a new last segment, wherever the old
handle stood. -/
theorem WalWriter.Holds.append_rotates {w : WalWriter} {log : SegmentLog}
    (h : w.Holds codec log) {entry : WalEntry} (hFits : codec.Fits entry)
    (hRotates : w.Rotates (codec.frame entry).length) :
    (w.appendEncoded (codec.frame entry)).Aligned codec
      (log ++ [{ seq := w.seq + 1, entries := [entry] }]) := by
  have hBelow : ∀ file ∈ log.dir codec, file.1 < w.seq + 1 := by
    intro file hf
    obtain ⟨segment, hs, rfl⟩ := List.mem_map.mp hf
    exact Nat.lt_succ_of_le (h.below segment hs)
  have hDir : (w.appendEncoded (codec.frame entry)).dir =
      log.dir codec ++ [(w.seq + 1, codec.frame entry)] := by
    simp only [appendEncoded, hRotates, if_true, write, rotate, h.dir,
      WalDir.create_above hBelow]
    rw [WalDir.writeAt_last fun file hf => (hBelow file hf).ne]
    simp [Bytes.overwrite]
  have hSeq : (w.appendEncoded (codec.frame entry)).seq = w.seq + 1 := by
    simp [appendEncoded, hRotates, write, rotate]
  refine ⟨⟨⟨?_, ⟨?_, ?_⟩, ?_⟩, ⟨log, [entry], ?_, ?_⟩⟩, ?_⟩
  · simpa [SegmentLog.dir, Segment.bytes] using hDir
  · refine List.pairwise_append.mpr ⟨h.wellFormed.ascending, by simp, ?_⟩
    intro s hs t ht
    obtain rfl := List.mem_singleton.mp ht
    exact Nat.lt_succ_of_le (h.below s hs)
  · intro s hs
    rcases List.mem_append.mp hs with hs | hs
    · exact h.wellFormed.segments s hs
    · obtain rfl := List.mem_singleton.mp hs
      exact ⟨by simpa using hFits, Or.inl rfl⟩
  · intro s hs
    rw [hSeq]
    rcases List.mem_append.mp hs with hs | hs
    · exact Nat.le_succ_of_le (h.below s hs)
    · obtain rfl := List.mem_singleton.mp hs
      exact le_rfl
  · rw [hSeq]
  · simp [appendEncoded, hRotates, write, rotate]
  · simp [appendEncoded, hRotates, write, rotate]

/-- Without rotation a writer at the end extends its last segment. -/
theorem WalWriter.AtEnd.append_stays {w : WalWriter} {front : SegmentLog}
    {entries : List WalEntry} (h : w.AtEnd codec (front ++ [{ seq := w.seq, entries }]))
    {entry : WalEntry} (hFits : codec.Fits entry)
    (hStays : ¬ w.Rotates (codec.frame entry).length) :
    (w.appendEncoded (codec.frame entry)).AtEnd codec
      (front ++ [{ seq := w.seq, entries := entries ++ [entry] }]) := by
  obtain ⟨front', entries', hLog, hCursor⟩ := h.last
  obtain ⟨rfl, hLast⟩ := List.append_inj' hLog rfl
  obtain rfl : entries = entries' := by simpa using hLast
  have hAscending := List.pairwise_append.mp h.wellFormed.ascending
  have hOther : ∀ file ∈ SegmentLog.dir codec front, file.1 ≠ w.seq := by
    intro file hf
    obtain ⟨segment, hs, rfl⟩ := List.mem_map.mp hf
    exact (hAscending.2.2 segment hs { seq := w.seq, entries } (by simp)).ne
  have hDir : (w.appendEncoded (codec.frame entry)).dir =
      SegmentLog.dir codec front ++ [(w.seq, codec.frames entries ++ codec.frame entry)] := by
    simp only [appendEncoded, hStays, if_false, write, h.dir, SegmentLog.dir_append, hCursor]
    have hOne : SegmentLog.dir codec [{ seq := w.seq, entries }] =
        [(w.seq, codec.frames entries)] := by simp [SegmentLog.dir, Segment.bytes]
    rw [hOne, WalDir.writeAt_last hOther, Bytes.overwrite_length_eq]
  refine ⟨⟨?_, ⟨?_, ?_⟩, ?_⟩, ⟨front, entries ++ [entry], ?_, ?_⟩⟩
  · simpa [SegmentLog.dir, Segment.bytes] using hDir
  · refine List.pairwise_append.mpr ⟨hAscending.1, by simp, ?_⟩
    intro s hs t ht
    obtain rfl := List.mem_singleton.mp ht
    exact hAscending.2.2 s hs { seq := w.seq, entries } (by simp)
  · intro s hs
    rcases List.mem_append.mp hs with hs | hs
    · exact h.wellFormed.segments s (by simp [hs])
    · obtain rfl := List.mem_singleton.mp hs
      have hOld := (h.wellFormed.segments { seq := w.seq, entries } (by simp)).1
      refine ⟨fun e he => ?_, Or.inl rfl⟩
      rcases List.mem_append.mp he with he | he
      · exact hOld e he
      · obtain rfl := List.mem_singleton.mp he
        exact hFits
  · intro s hs
    simp only [appendEncoded, hStays, if_false, write]
    rcases List.mem_append.mp hs with hs | hs
    · exact h.below s (by simp [hs])
    · obtain rfl := List.mem_singleton.mp hs
      exact le_rfl
  · simp [appendEncoded, hStays, write]
  · simp [appendEncoded, hStays, write, hCursor]

/-- The second log continues the first by these entries: every segment is
still there with its bytes as a prefix, and no segment added since is cut. -/
structure SegmentLog.Grows (codec : Codec) (old new : SegmentLog) (added : List WalEntry) : Prop where
  entries : new.entries = old.entries ++ added
  kept : ∀ segment ∈ old, ∃ later ∈ new, later.seq = segment.seq ∧
    segment.bytes codec <+: later.bytes codec
  fresh : ∀ segment ∈ new, segment ∈ old ∨ segment.torn = []

theorem SegmentLog.Grows.refl (log : SegmentLog) : log.Grows codec log [] :=
  ⟨by simp, fun segment hs => ⟨segment, hs, rfl, List.prefix_rfl⟩, fun _ hs => Or.inl hs⟩

theorem SegmentLog.Grows.trans {first second third : SegmentLog} {added added' : List WalEntry}
    (h : first.Grows codec second added) (h' : second.Grows codec third added') :
    first.Grows codec third (added ++ added') := by
  refine ⟨by rw [h'.entries, h.entries, List.append_assoc], ?_, ?_⟩
  · intro segment hs
    obtain ⟨middle, hm, hSeq, hPrefix⟩ := h.kept segment hs
    obtain ⟨later, hl, hSeq', hPrefix'⟩ := h'.kept middle hm
    exact ⟨later, hl, hSeq'.trans hSeq, hPrefix.trans hPrefix'⟩
  · intro segment hs
    rcases h'.fresh segment hs with hs | hs
    · exact h.fresh segment hs
    · exact Or.inr hs

theorem SegmentLog.grows_rotated (log : SegmentLog) (seq : Nat) (entries : List WalEntry) :
    log.Grows codec (log ++ [⟨seq, entries, []⟩]) entries := by
  refine ⟨by simp, fun segment hs => ⟨segment, by simp [hs], rfl, List.prefix_rfl⟩, ?_⟩
  intro segment hs
  rcases List.mem_append.mp hs with hs | hs
  · exact Or.inl hs
  · obtain rfl := List.mem_singleton.mp hs
    exact Or.inr rfl

theorem SegmentLog.grows_last (front : SegmentLog) (seq : Nat) (entries added : List WalEntry) :
    SegmentLog.Grows codec (front ++ [⟨seq, entries, []⟩])
      (front ++ [⟨seq, entries ++ added, []⟩]) added := by
  refine ⟨by simp, ?_, ?_⟩
  · intro segment hs
    rcases List.mem_append.mp hs with hs | hs
    · exact ⟨segment, by simp [hs], rfl, List.prefix_rfl⟩
    · obtain rfl := List.mem_singleton.mp hs
      exact ⟨⟨seq, entries ++ added, []⟩, by simp, rfl, by simp [Segment.bytes]⟩
  · intro segment hs
    rcases List.mem_append.mp hs with hs | hs
    · exact Or.inl (by simp [hs])
    · obtain rfl := List.mem_singleton.mp hs
      exact Or.inr rfl

/-- One append at the end adds one entry to the log and keeps its bytes. -/
theorem WalWriter.AtEnd.append {w : WalWriter} {log : SegmentLog} (h : w.AtEnd codec log)
    {entry : WalEntry} (hFits : codec.Fits entry) :
    ∃ log', (w.appendEncoded (codec.frame entry)).AtEnd codec log' ∧
      log.Grows codec log' [entry] := by
  by_cases hRotates : w.Rotates (codec.frame entry).length
  · exact ⟨_, (h.toHolds.append_rotates hFits hRotates).toAtEnd, SegmentLog.grows_rotated _ _ _⟩
  · obtain ⟨front, entries, rfl, -⟩ := h.last
    exact ⟨_, h.append_stays hFits hRotates, SegmentLog.grows_last _ _ _ _⟩

theorem WalWriter.Aligned.append {w : WalWriter} {log : SegmentLog} (h : w.Aligned codec log)
    {entry : WalEntry} (hFits : codec.Fits entry) :
    ∃ log', (w.appendEncoded (codec.frame entry)).Aligned codec log' ∧
      log.Grows codec log' [entry] := by
  obtain ⟨log', hEnd, hGrows⟩ := h.toAtEnd.append hFits
  refine ⟨log', ⟨hEnd, ?_⟩, hGrows⟩
  by_cases hRotates : w.Rotates (codec.frame entry).length
  · simp [appendEncoded, hRotates, write, rotate]
  · simp [appendEncoded, hRotates, write, h.count]

/-- Opening a non-empty log: the handle is on its last segment, at offset 0. -/
theorem WalWriter.openLatest_holds {front : SegmentLog} {last : Segment}
    (h : SegmentLog.WellFormed codec (front ++ [last])) (config : WalConfig) :
    let w := WalWriter.openLatest (SegmentLog.dir codec (front ++ [last])) config
    w.Holds codec (front ++ [last]) ∧ w.seq = last.seq ∧ w.cursor = 0 ∧
      w.segmentBytes = (last.bytes codec).length ∧ w.queue = [] ∧ w.config = config := by
  have hAscending := List.pairwise_append.mp h.ascending
  have hHighest : WalDir.highest (SegmentLog.dir codec (front ++ [last])) =
      some (last.seq, last.bytes codec) := by
    rw [SegmentLog.dir_append]
    apply WalDir.highest_append
    intro other ho
    obtain ⟨segment, hs, rfl⟩ := List.mem_map.mp ho
    exact hAscending.2.2 segment hs last (by simp)
  simp only [openLatest, hHighest]
  refine ⟨⟨rfl, h, ?_⟩, by simp⟩
  intro segment hs
  rcases List.mem_append.mp hs with hs | hs
  · exact (hAscending.2.2 segment hs last (by simp)).le
  · obtain rfl := List.mem_singleton.mp hs
    exact le_rfl

/-- Opening an empty directory creates segment 0. -/
theorem WalWriter.openLatest_nil (codec : Codec) (config : WalConfig) :
    (WalWriter.openLatest [] config).Aligned codec [{ seq := 0, entries := [] }] ∧
      (WalWriter.openLatest [] config).queue = [] ∧
      (WalWriter.openLatest [] config).config = config := by
  refine ⟨⟨⟨⟨rfl, ⟨by simp, ?_⟩, ?_⟩, ⟨[], [], rfl, rfl⟩⟩, rfl⟩, rfl, rfl⟩
  · intro segment hs
    obtain rfl := List.mem_singleton.mp hs
    exact ⟨by simp, Or.inl rfl⟩
  · intro segment hs
    obtain rfl := List.mem_singleton.mp hs
    exact le_rfl

end Writing
end Z1Kv
