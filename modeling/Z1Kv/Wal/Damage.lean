import Z1Kv.Wal.Grammar
import Z1Kv.Wal.Log
import Z1Kv.Wal.Postcard

/-! A log with one damaged record. The reader tells a damaged record from a cut one
by the length field only, which may be what was damaged. -/
namespace Z1Kv

/-- A log and one of its records, whose bytes are replaced by as many others. -/
structure Damage where
  before : SegmentLog := []
  seq : Nat
  first : List WalEntry := []
  entry : WalEntry
  rest : List WalEntry
  after : SegmentLog := []
  bytes : Bytes

namespace Damage
variable (codec : Codec) (d : Damage)

/-- The log as it was written. -/
def log : SegmentLog := d.before ++ ⟨d.seq, d.first ++ d.entry :: d.rest, []⟩ :: d.after

/-- The segment from the damaged record on. -/
def remaining : Bytes := d.bytes ++ codec.frames d.rest

/-- The directory with the damaged record. -/
def dir : WalDir :=
  d.before.dir codec ++ (d.seq, codec.frames d.first ++ d.remaining codec) :: d.after.dir codec

def declaredLen : Nat := Bytes.value (d.bytes.take 4)

def storedCrc : UInt32 := UInt32.ofNat (Bytes.value ((d.bytes.take 8).drop 4))

/-- A valid log, a record other than the very last one, and a change within its bytes
that leaves no header in front of bytes with the checksum it stores. -/
structure Admissible : Prop where
  wellFormed : d.log.WellFormed codec
  whole : ∀ segment ∈ d.log, segment.torn = []
  twoInLast : ∀ last ∈ d.log.getLast?, 2 ≤ last.entries.length
  notLast : d.after = [] → d.rest ≠ []
  sameLength : d.bytes.length = (codec.frame d.entry).length
  changed : d.bytes ≠ codec.frame d.entry
  noCollision : 8 + d.declaredLen ≤ (d.remaining codec).length →
    codec.crc32 (((d.remaining codec).drop 8).take d.declaredLen) ≠ d.storedCrc

/-- The damaged header in the last segment declares a length within the limit that
extends past the end of the file. -/
def LooksTorn : Prop :=
  d.after = [] ∧ d.declaredLen ≤ maxWalRecordLen ∧ (d.remaining codec).length < 8 + d.declaredLen

variable {codec d}

theorem Admissible.eight_le (h : d.Admissible codec) : 8 ≤ d.bytes.length := by
  rw [h.sameLength, codec.frame_length]
  omega

theorem Admissible.take_eight (h : d.Admissible codec) :
    (d.remaining codec).take 8 = d.bytes.take 8 :=
  List.take_append_of_le_length h.eight_le

theorem Admissible.take_four (h : d.Admissible codec) :
    (d.remaining codec).take 4 = d.bytes.take 4 :=
  List.take_append_of_le_length (le_trans (by decide) h.eight_le)

/-- The damaged record is not read. -/
theorem Admissible.readOneRecord_remaining (h : d.Admissible codec) :
    ∃ e, readOneRecord codec (d.remaining codec) = .error e := by
  cases hRead : readOneRecord codec (d.remaining codec) with
  | error e => exact ⟨e, rfl⟩
  | ok outcome =>
      exfalso
      have hEight := h.eight_le
      cases outcome with
      | none =>
          have hNil := congrArg List.length (readOneRecord_eq_none hRead)
          simp only [remaining, List.length_append, List.length_nil] at hNil
          omega
      | some found =>
          obtain ⟨payload, hValid, -, hBytes⟩ := readOneRecord_eq_some hRead
          have hLen : d.declaredLen = payload.length := by
            rw [declaredLen, ← h.take_four, hBytes, take_four_framed,
              Bytes.value_le_of_lt hValid.length_lt]
          have hCrc : d.storedCrc = codec.crc32 payload := by
            rw [storedCrc, ← h.take_eight, hBytes, crc_field_framed]
          refine h.noCollision ?_ ?_
          · rw [hBytes, List.length_append, framed_length, hLen]
            omega
          · rw [hBytes, drop_eight_framed, hLen, List.take_left, hCrc]

theorem Admissible.tornTail_iff (h : d.Admissible codec) : TornTail (d.remaining codec) ↔
    d.declaredLen ≤ maxWalRecordLen ∧ (d.remaining codec).length < 8 + d.declaredLen := by
  have hLong : 8 ≤ (d.remaining codec).length := by
    rw [remaining, List.length_append]
    exact Nat.le_add_right_of_le h.eight_le
  have hNe : d.remaining codec ≠ [] := by
    intro hNil
    simp [hNil] at hLong
  simp only [TornTail, hNe, Nat.not_lt.mpr hLong, hLong, h.take_four, declaredLen, false_or,
    false_and, true_and]

/-- Replay of the damaged segment stops at the damaged record. -/
theorem Admissible.replaySegment_damaged (h : d.Admissible codec)
    (hFits : ∀ entry ∈ d.first, codec.Fits entry) (isLast : Bool) :
    (∃ e, replaySegment codec isLast (codec.frames d.first ++ d.remaining codec) = .error e) ↔
      ¬ (isLast = true ∧ TornTail (d.remaining codec)) := by
  obtain ⟨e, hRead⟩ := h.readOneRecord_remaining
  rw [replaySegment_frames isLast _ hFits, replaySegment_eq, hRead]
  simp only [← structurallyTruncated_iff, ← Bool.and_eq_true]
  cases hTorn : isLast && structurallyTruncated (d.remaining codec) with
  | true => simp [Except.map]
  | false => simp [Except.map]

/-- Whole segments in front are read, so only what follows them can fail. -/
theorem replaySegments_whole_append {front : SegmentLog} {more : WalDir} (hMore : more ≠ [])
    (hFront : ∀ segment ∈ front, segment.WellFormed codec ∧ segment.torn = []) :
    (∃ e, replaySegments codec (front.dir codec ++ more) = .error e) ↔
      ∃ e, replaySegments codec more = .error e := by
  induction front with
  | nil => rfl
  | cons segment front ih =>
      obtain ⟨hSegment, hWhole⟩ := hFront segment (by simp)
      have hLater : (SegmentLog.dir codec front ++ more).isEmpty = false := by simp [hMore]
      rw [← ih fun s hs => hFront s (by simp [hs])]
      simp only [SegmentLog.dir, List.map_cons, List.cons_append, replaySegments] at hLater ⊢
      rw [hLater, replaySegment_segment hSegment (.inl hWhole)]
      cases replaySegments codec (List.map (fun s : Segment => (s.seq, s.bytes codec)) front ++ more)
        <;> simp [bind, Except.bind]

/-- A damaged record that is not the last one makes replay fail, except where it is in
the last segment and passes for a record cut by the end of the file. -/
theorem replayAll_damaged_iff (codec : Codec) (d : Damage) (h : d.Admissible codec) :
    (∃ e, replayAll codec (d.dir codec) = .error e) ↔ ¬ d.LooksTorn codec := by
  have hSegment (s : Segment) (hs : s ∈ d.log) : s.WellFormed codec ∧ s.torn = [] :=
    ⟨h.wellFormed.segments s hs, h.whole s hs⟩
  have hFits : ∀ entry ∈ d.first, codec.Fits entry := by
    intro entry hEntry
    exact (hSegment ⟨d.seq, d.first ++ d.entry :: d.rest, []⟩ (by simp [log])).1.1 entry
      (by simp [hEntry])
  have hSorted : replayAll codec (d.dir codec) = replaySegments codec (d.dir codec) := by
    have hSeqs : (d.dir codec).map Prod.fst = d.log.map Segment.seq := by
      simp [dir, log, SegmentLog.dir, Function.comp_def]
    have hAscending : (d.dir codec).Pairwise fun a b => a.1 ≤ b.1 := by
      refine List.pairwise_map.mp (?_ : ((d.dir codec).map Prod.fst).Pairwise (· ≤ ·))
      rw [hSeqs]
      exact List.pairwise_map.mpr (h.wellFormed.ascending.imp Nat.le_of_lt)
    rw [replayAll, hAscending.insertionSort_eq]
  rw [hSorted, dir, replaySegments_whole_append (by simp) fun s hs => hSegment s (by simp [log, hs]),
    replaySegments]
  have hDamaged := h.replaySegment_damaged hFits (d.after.dir codec).isEmpty
  have hEmpty : (d.after.dir codec).isEmpty = true ↔ d.after = [] := by simp [SegmentLog.dir]
  rw [hEmpty, h.tornTail_iff, ← LooksTorn] at hDamaged
  rw [← hDamaged]
  cases hRead : replaySegment codec (d.after.dir codec).isEmpty
      (codec.frames d.first ++ d.remaining codec) with
  | error e => simp [bind, Except.bind]
  | ok entries =>
      -- the segment was read only because it is the last one
      have hTorn : d.LooksTorn codec := by
        by_contra hNot
        obtain ⟨e, hErr⟩ := hDamaged.mpr hNot
        rw [hRead] at hErr
        cases hErr
      rw [hTorn.1]
      simp [SegmentLog.dir, replaySegments, bind, Except.bind]

/-- A put and a commit record in one segment, and the bytes of the first one changed. -/
def atPut (bytes : Bytes) : Damage where
  seq := 0
  entry := ⟨1, .put 0 [1] (some [7])⟩
  rest := [⟨1, .commit 1 1⟩]
  bytes := bytes

theorem atPut_admissible {bytes : Bytes}
    (hLength : bytes.length = (Postcard.codec.frame ⟨1, .put 0 [1] (some [7])⟩).length)
    (hChanged : bytes ≠ Postcard.codec.frame ⟨1, .put 0 [1] (some [7])⟩)
    (hCrc : 8 + (atPut bytes).declaredLen ≤ ((atPut bytes).remaining Postcard.codec).length →
      Postcard.codec.crc32 ((((atPut bytes).remaining Postcard.codec).drop 8).take
        (atPut bytes).declaredLen) ≠ (atPut bytes).storedCrc) :
    (atPut bytes).Admissible Postcard.codec where
  wellFormed := by
    refine ⟨by simp [log, atPut], fun segment hSegment => ?_⟩
    obtain rfl : segment = ⟨0, [⟨1, .put 0 [1] (some [7])⟩, ⟨1, .commit 1 1⟩], []⟩ := by
      simpa [log, atPut] using hSegment
    exact ⟨by decide, .inl rfl⟩
  whole := by simp [log, atPut]
  twoInLast := by simp [log, atPut]
  notLast := by simp [atPut]
  sameLength := hLength
  changed := hChanged
  noCollision := hCrc

/-- The lowest bit of the checksum flipped. -/
def flippedCrc : Damage :=
  atPut ((Postcard.codec.frame ⟨1, .put 0 [1] (some [7])⟩).modify 4 (· ^^^ 1))

theorem flipped_crc_is_fatal :
    flippedCrc.Admissible Postcard.codec ∧
      ∃ e, replayAll Postcard.codec (flippedCrc.dir Postcard.codec) = .error e := by
  have h : flippedCrc.Admissible Postcard.codec :=
    atPut_admissible (by decide +kernel) (by decide +kernel) (by decide +kernel)
  refine ⟨h, (replayAll_damaged_iff _ _ h).mpr fun hTorn => ?_⟩
  exact absurd hTorn.2.2 (by decide +kernel)

/-- The lowest byte of the length field flipped. -/
def flippedLength : Damage :=
  atPut ((Postcard.codec.frame ⟨1, .put 0 [1] (some [7])⟩).modify 0 (· ^^^ 255))

/-- The damaged put passes for a cut record, and the commit record after it is dropped. -/
theorem flipped_length_drops_commit :
    flippedLength.Admissible Postcard.codec ∧
      replayAll Postcard.codec (flippedLength.dir Postcard.codec) = .ok [] :=
  ⟨atPut_admissible (by decide +kernel) (by decide +kernel) (by decide +kernel),
    by decide +kernel⟩

end Damage

end Z1Kv
