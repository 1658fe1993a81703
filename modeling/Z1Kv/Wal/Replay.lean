import Mathlib.Data.List.Sort
import Z1Kv.Wal.Writer

/-! WAL replay: the record-scanning layer. A file handle is represented by the
bytes from its current offset to the end of the file. -/
namespace Z1Kv

section
variable (codec : Codec)

/-- Read a single record; `none` at a clean end of file. -/
def readOneRecord (rest : Bytes) : Except Z1Error (Option (WalEntry × Bytes)) :=
  let header := rest.take 8
  if header.length = 0 then .ok none
  else if header.length ≠ 8 then .error (.deserialize .truncatedHeader)
  else
    let len := Bytes.value (header.take 4)
    let storedCrc := UInt32.ofNat (Bytes.value (header.drop 4))
    if len > maxWalRecordLen then
      .error (.deserialize (.lengthExceedsLimit len maxWalRecordLen))
    else
      let body := rest.drop 8
      if body.length < len then .error (.deserialize .truncatedPayload)
      else
        let payload := body.take len
        let actualCrc := codec.crc32 payload
        if actualCrc ≠ storedCrc then .error (.deserialize (.crcMismatch storedCrc actualCrc))
        else
          match codec.decode payload with
          | none => .error (.deserialize .decode)
          | some entry => .ok (some (entry, body.drop len))

/-- The peek before each record: fewer than eight header bytes, or a declared
length past the end of the file, and the declaration within the size limit.
Missing header bytes read as the zeros of the buffer. -/
def structurallyTruncated (rest : Bytes) : Bool :=
  let header := rest.take 8
  let headerRead := header.length
  let padded := header ++ List.replicate (8 - headerRead) 0
  let declaredLen := Bytes.value (padded.take 4)
  let beyondEnd := 8 + declaredLen > rest.length
  let overLimit := declaredLen > maxWalRecordLen
  (headerRead < 8 || beyondEnd) && !overLimit

/-- The record loop over one segment. Every record consumes at least eight
bytes, so a fuel above the number of bytes left is never exhausted. -/
def replayLoop (isLastSegment : Bool) : Nat → Bytes → Except Z1Error (List WalEntry)
  | 0, _ => .ok []
  | fuel + 1, rest =>
      match readOneRecord codec rest with
      | .ok (some (entry, tail)) => (replayLoop isLastSegment fuel tail).map (entry :: ·)
      | .ok none => .ok []
      | .error e =>
          if isLastSegment && structurallyTruncated rest then .ok [] else .error e

def replaySegment (isLastSegment : Bool) (bytes : Bytes) : Except Z1Error (List WalEntry) :=
  replayLoop codec isLastSegment (bytes.length + 1) bytes

def replaySegments : WalDir → Except Z1Error (List WalEntry)
  | [] => .ok []
  | (_, bytes) :: later => do
      let here ← replaySegment codec later.isEmpty bytes
      let more ← replaySegments later
      .ok (here ++ more)

/-- Replay all segment files in `seq` order. -/
def replayAll (dir : WalDir) : Except Z1Error (List WalEntry) :=
  replaySegments codec (dir.insertionSort fun a b => a.1 ≤ b.1)

end

variable {codec : Codec}

/-- A successful read consumes its record, so the loop makes progress. -/
theorem readOneRecord_tail_length {rest tail : Bytes} {entry : WalEntry}
    (h : readOneRecord codec rest = .ok (some (entry, tail))) :
    tail.length < rest.length := by
  unfold readOneRecord at h
  dsimp only at h
  split_ifs at h with h0 h8 hLimit hBody hCrc
  · cases h
  split at h
  · cases h
  · simp only [Except.ok.injEq, Option.some.injEq, Prod.mk.injEq] at h
    have hLength := congrArg List.length h.2
    simp only [List.length_take, List.length_drop] at hLength h8
    omega

/-- Any fuel above the number of bytes gives the same result. -/
theorem replayLoop_fuel (isLast : Bool) {rest : Bytes} {fuel fuel' : Nat}
    (h : rest.length < fuel) (h' : rest.length < fuel') :
    replayLoop codec isLast fuel rest = replayLoop codec isLast fuel' rest := by
  induction fuel generalizing rest fuel' with
  | zero => omega
  | succ fuel ih =>
      cases fuel' with
      | zero => omega
      | succ fuel' =>
          simp only [replayLoop]
          split
          · rename_i entry tail hRead
            have hTail := readOneRecord_tail_length hRead
            rw [ih (by omega) (show tail.length < fuel' by omega)]
          · rfl
          · rfl

/-- The loop's own recursion, without fuel. -/
theorem replaySegment_eq (isLast : Bool) (rest : Bytes) :
    replaySegment codec isLast rest =
      match readOneRecord codec rest with
      | .ok (some (entry, tail)) => (replaySegment codec isLast tail).map (entry :: ·)
      | .ok none => .ok []
      | .error e =>
          if isLast && structurallyTruncated rest then .ok [] else .error e := by
  unfold replaySegment
  rw [replayLoop]
  split
  · rename_i entry tail hRead
    have hTail := readOneRecord_tail_length hRead
    rw [replayLoop_fuel isLast hTail (show tail.length < tail.length + 1 by omega)]
  · rfl
  · rfl

/-- The frame around a payload. -/
def Codec.framed (codec : Codec) (payload : Bytes) : Bytes :=
  Bytes.le 4 payload.length ++ Bytes.le 4 (codec.crc32 payload).toNat ++ payload

/-- A payload the reader accepts. -/
structure Codec.Valid (codec : Codec) (payload : Bytes) : Prop where
  inLimit : payload.length ≤ maxWalRecordLen
  decodes : ∃ entry, codec.decode payload = some entry

section Framed
variable {payload : Bytes}

theorem Codec.Valid.length_lt (h : codec.Valid payload) : payload.length < 256 ^ 4 :=
  lt_of_le_of_lt h.inLimit (by decide)

theorem framed_length : (codec.framed payload).length = 8 + payload.length := by
  simp only [Codec.framed, List.length_append, Bytes.le_length]

theorem take_four_framed (rest : Bytes) :
    (codec.framed payload ++ rest).take 4 = Bytes.le 4 payload.length := by
  rw [Codec.framed, List.append_assoc, List.append_assoc, List.take_left' (by simp)]

theorem drop_eight_framed (rest : Bytes) :
    (codec.framed payload ++ rest).drop 8 = payload ++ rest := by
  rw [Codec.framed, List.append_assoc, List.drop_left' (by simp)]

theorem crc_field_framed (rest : Bytes) :
    UInt32.ofNat (Bytes.value (((codec.framed payload ++ rest).take 8).drop 4)) =
      codec.crc32 payload := by
  have hBytes : ((codec.framed payload ++ rest).take 8).drop 4 =
      Bytes.le 4 (codec.crc32 payload).toNat := by
    rw [List.drop_take, Codec.framed, List.append_assoc, List.append_assoc,
      List.drop_left' (by simp), List.take_left' (by simp)]
  rw [hBytes, Bytes.value_le_of_lt (UInt32.toNat_lt _)]
  exact UInt32.ofNat_toNat

theorem readOneRecord_framed {entry : WalEntry} (h : codec.Valid payload)
    (hDecode : codec.decode payload = some entry) (rest : Bytes) :
    readOneRecord codec (codec.framed payload ++ rest) = .ok (some (entry, rest)) := by
  have hHeader : ((codec.framed payload ++ rest).take 8).length = 8 := by
    simp [framed_length]
    omega
  have hLen : Bytes.value (((codec.framed payload ++ rest).take 8).take 4) = payload.length := by
    rw [List.take_take, min_eq_left (by decide), take_four_framed, Bytes.value_le_of_lt h.length_lt]
  have hLimit : ¬ payload.length > maxWalRecordLen := Nat.not_lt.mpr h.inLimit
  simp only [readOneRecord, hHeader, hLen, drop_eight_framed, crc_field_framed, hLimit, List.take_left,
    List.drop_left]
  simp [hDecode]

end Framed

theorem Codec.Fits.valid {entry : WalEntry} (h : codec.Fits entry) :
    codec.Valid (codec.encode entry) :=
  ⟨h, entry, codec.decode_encode entry h⟩

theorem declaredLen_frame (entry : WalEntry) (h : codec.Fits entry) (rest : Bytes) :
    Bytes.value (((codec.frame entry ++ rest).take 8).take 4) = (codec.encode entry).length := by
  rw [List.take_take, min_eq_left (by decide)]
  exact (congrArg Bytes.value (take_four_framed rest)).trans
    (Bytes.value_le_of_lt h.valid.length_lt)

/-- A framed record is read back, whatever follows it. -/
theorem readOneRecord_frame (entry : WalEntry) (h : codec.Fits entry) (rest : Bytes) :
    readOneRecord codec (codec.frame entry ++ rest) = .ok (some (entry, rest)) :=
  readOneRecord_framed h.valid (codec.decode_encode entry h) rest

/-- A run of framed records in front of a tail is read as those records. -/
theorem replaySegment_frames (isLast : Bool) (entries : List WalEntry)
    (h : ∀ entry ∈ entries, codec.Fits entry) (tail : Bytes) :
    replaySegment codec isLast (codec.frames entries ++ tail) =
      (replaySegment codec isLast tail).map (entries ++ ·) := by
  induction entries with
  | nil =>
      simp only [Codec.frames_nil, List.nil_append]
      cases replaySegment codec isLast tail <;> rfl
  | cons entry rest ih =>
      rw [Codec.frames_cons, List.append_assoc, replaySegment_eq,
        readOneRecord_frame entry (h entry (by simp))]
      simp only [ih fun e he => h e (by simp [he])]
      cases replaySegment codec isLast tail <;> rfl

@[simp] theorem replaySegment_nil (isLast : Bool) : replaySegment codec isLast [] = .ok [] := rfl

end Z1Kv
