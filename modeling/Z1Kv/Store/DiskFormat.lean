import Z1Kv.Store.Disk
import Z1Kv.Wal.Postcard

/-! The framework of the patch files: `magic(6) | version(4B LE) | crc32(4B LE) |
payload_len(4B LE) | payload`. Payload encoding and checksum are third-party code. The
reader is written over slices at fixed offsets; a slice out of range would be a panic,
which is an outcome of its own here. -/
namespace Z1Kv

/-- A persisted type with its constants, and `postcard` and `crc32fast` at it. -/
structure DiskFormat (α : Type) where
  magic : Bytes
  version : UInt32
  minReadableVersion : UInt32
  encode : α → Bytes
  decode : Bytes → Option α
  crc32 : Bytes → UInt32
  magic_length : magic.length = 6
  readable : minReadableVersion ≤ version
  decode_encode : ∀ x, (encode x).length < 2 ^ 32 → decode (encode x) = some x

/-- Reasons for `Z1Error::Serialization` and `Z1Error::Deserialize` of a format. -/
inductive DiskFormatError
  | payloadTooLarge (length : Nat)
  | tooShort (magic : Bytes) (length headerSize : Nat)
  | magicMismatch (expected got : Bytes)
  | unsupportedVersion (version minReadable newest : Nat)
  | payloadLenOverflows (length : Nat)
  | truncated (expected available : Nat)
  | crcMismatch (stored actual : UInt32)
  | decode
  deriving DecidableEq

namespace DiskFormat

def headerSize : Nat := 6 + 4 + 4 + 4

/-- `bytes[from..to]`. -/
def slice (bytes : Bytes) (start stop : Nat) : Option Bytes :=
  if start ≤ stop ∧ stop ≤ bytes.length then some ((bytes.take stop).drop start) else none

/-- `usize::checked_add` on a 64-bit target. -/
def checkedAdd (a b : Nat) : Option Nat := if a + b < 2 ^ 64 then some (a + b) else none

section
variable {α : Type} (format : DiskFormat α)

def toDiskBytes (x : α) : Except DiskFormatError Bytes :=
  let payload := format.encode x
  if payload.length > 2 ^ 32 - 1 then .error (.payloadTooLarge payload.length)
  else
    .ok (format.magic ++ Bytes.le 4 format.version.toNat ++
      Bytes.le 4 (format.crc32 payload).toNat ++ Bytes.le 4 payload.length ++ payload)

/-- The part of `from_disk_bytes` behind the header checks. -/
def readPayload (bytes : Bytes) (storedCrc : UInt32) (payloadLen : Nat) :
    Option (Except DiskFormatError α) :=
  match checkedAdd headerSize payloadLen with
  | none => some (.error (.payloadLenOverflows payloadLen))
  | some totalExpected =>
      if bytes.length < totalExpected then some (.error (.truncated totalExpected bytes.length))
      else do
        let payload ← slice bytes headerSize totalExpected
        let actualCrc := format.crc32 payload
        if actualCrc ≠ storedCrc then some (.error (.crcMismatch storedCrc actualCrc))
        else
          match format.decode payload with
          | none => some (.error .decode)
          | some x => some (.ok x)

/-- `from_disk_bytes`; `none` stands for the panic of a slice out of range. -/
def fromDiskBytes (bytes : Bytes) : Option (Except DiskFormatError α) :=
  if bytes.length < headerSize then
    some (.error (.tooShort format.magic bytes.length headerSize))
  else do
    let magic ← slice bytes 0 6
    if magic ≠ format.magic then some (.error (.magicMismatch format.magic magic))
    else
      let version := Bytes.value (← slice bytes 6 10)
      if version < format.minReadableVersion.toNat ∨ version > format.version.toNat then
        some (.error (.unsupportedVersion version format.minReadableVersion.toNat
          format.version.toNat))
      else
        let storedCrc := UInt32.ofNat (Bytes.value (← slice bytes 10 14))
        let payloadLen := Bytes.value (← slice bytes 14 18)
        format.readPayload bytes storedCrc payloadLen

/-- The bytes that stand for a payload of this version, with what follows them. -/
structure Frames (bytes : Bytes) (version : Nat) (payload rest : Bytes) : Prop where
  eq : bytes = format.magic ++ Bytes.le 4 version ++ Bytes.le 4 (format.crc32 payload).toNat ++
    Bytes.le 4 payload.length ++ payload ++ rest
  length : payload.length < 2 ^ 32
  oldest : format.minReadableVersion.toNat ≤ version
  newest : version ≤ format.version.toNat

end

theorem slice_eq {bytes : Bytes} {start stop : Nat} (h : start ≤ stop) (hStop : stop ≤ bytes.length) :
    slice bytes start stop = some ((bytes.take stop).drop start) := by
  rw [slice, if_pos ⟨h, hStop⟩]

/-- A slice between what stands before and after it. -/
theorem slice_of_append {bytes front middle rest : Bytes} {start stop : Nat}
    (h : bytes = front ++ middle ++ rest) (hStart : front.length = start)
    (hStop : start + middle.length = stop) : slice bytes start stop = some middle := by
  have hTake : bytes.take stop = front ++ middle := by
    rw [h]
    exact List.take_left' (by rw [List.length_append, hStart, hStop])
  have hLength : stop ≤ bytes.length := by
    rw [h, List.length_append, List.length_append]
    omega
  rw [slice_eq (by omega) hLength, hTake, List.drop_left' hStart]

/-- A slice continues the bytes before it. -/
theorem take_append_slice {bytes : Bytes} {start stop : Nat} (h : start ≤ stop) :
    bytes.take start ++ (bytes.take stop).drop start = bytes.take stop := by
  calc bytes.take start ++ (bytes.take stop).drop start
      = (bytes.take stop).take start ++ (bytes.take stop).drop start := by
        rw [List.take_take, min_eq_left h]
    _ = bytes.take stop := List.take_append_drop _ _

section
variable {α : Type} {format : DiskFormat α} {bytes : Bytes}

/-- Within the file no slice of the payload is out of range. -/
theorem readPayload_isSome {storedCrc : UInt32} {payloadLen : Nat} :
    (format.readPayload bytes storedCrc payloadLen).isSome = true := by
  unfold readPayload
  split
  · rfl
  · next total hTotal =>
    have hAdd : headerSize ≤ total := by
      unfold checkedAdd at hTotal
      split at hTotal
      · exact (Option.some.inj hTotal) ▸ Nat.le_add_right _ _
      · cases hTotal
    split
    · rfl
    · next hLong =>
      rw [slice_eq hAdd (Nat.le_of_not_lt hLong)]
      dsimp only [Option.bind_eq_bind, Option.bind_some]
      split
      · rfl
      · split <;> rfl

/-- Every slice of the reader is in range. -/
theorem fromDiskBytes_isSome (format : DiskFormat α) (bytes : Bytes) :
    (format.fromDiskBytes bytes).isSome = true := by
  unfold fromDiskBytes
  split
  · rfl
  · next hLong =>
    have hLength : headerSize ≤ bytes.length := Nat.le_of_not_lt hLong
    have hEnd : 18 ≤ bytes.length := hLength
    rw [slice_eq (by omega) (show 6 ≤ bytes.length by omega),
      slice_eq (by omega) (show 10 ≤ bytes.length by omega),
      slice_eq (by omega) (show 14 ≤ bytes.length by omega), slice_eq (by omega) hEnd]
    dsimp only [Option.bind_eq_bind, Option.bind_some]
    split
    · rfl
    · split
      · rfl
      · exact readPayload_isSome

variable {version : Nat} {payload rest : Bytes} {x : α}

/-- Bytes that stand for a payload are read as what it decodes to. -/
theorem Frames.read (h : format.Frames bytes version payload rest)
    (hDecode : format.decode payload = some x) : format.fromDiskBytes bytes = some (.ok x) := by
  obtain ⟨hBytes, hPayload, hOldest, hNewest⟩ := h
  have hMagicLength := format.magic_length
  have hMagic : slice bytes 0 6 = some format.magic :=
    @slice_of_append bytes [] format.magic _ 0 6 (by rw [hBytes]; simp only [List.append_assoc]; rfl)
      rfl (by omega)
  have hVersion : slice bytes 6 10 = some (Bytes.le 4 version) :=
    @slice_of_append bytes format.magic _ _ 6 10 (by rw [hBytes]; simp only [List.append_assoc]; rfl)
      hMagicLength (by simp)
  have hCrc : slice bytes 10 14 = some (Bytes.le 4 (format.crc32 payload).toNat) :=
    @slice_of_append bytes (format.magic ++ Bytes.le 4 version) _ _ 10 14
      (by rw [hBytes]; simp only [List.append_assoc]; rfl) (by simp [hMagicLength]) (by simp)
  have hLen : slice bytes 14 18 = some (Bytes.le 4 payload.length) :=
    @slice_of_append bytes
      (format.magic ++ Bytes.le 4 version ++ Bytes.le 4 (format.crc32 payload).toNat) _ _ 14 18
      (by rw [hBytes]; simp only [List.append_assoc]; rfl) (by simp [hMagicLength]) (by simp)
  have hBody : slice bytes headerSize (headerSize + payload.length) = some payload :=
    @slice_of_append bytes (format.magic ++ Bytes.le 4 version ++
        Bytes.le 4 (format.crc32 payload).toNat ++ Bytes.le 4 payload.length) _ rest headerSize
      (headerSize + payload.length) hBytes (by simp [hMagicLength, headerSize]) rfl
  have hLength : bytes.length = headerSize + payload.length + rest.length := by
    rw [hBytes]
    simp only [List.length_append, Bytes.le_length, hMagicLength, headerSize]
  have hVersionLt : version < 256 ^ 4 := hNewest.trans_lt (UInt32.toNat_lt _)
  have hCrcValue : UInt32.ofNat (Bytes.value (Bytes.le 4 (format.crc32 payload).toNat)) =
      format.crc32 payload := by
    rw [Bytes.value_le_of_lt (UInt32.toNat_lt _)]
    exact UInt32.ofNat_toNat
  have hTotal : checkedAdd headerSize payload.length = some (headerSize + payload.length) := by
    rw [checkedAdd, if_pos (by unfold headerSize; omega)]
  unfold fromDiskBytes
  rw [if_neg (by omega), hMagic, hVersion, hCrc, hLen]
  dsimp only [Option.bind_eq_bind, Option.bind_some]
  rw [if_neg (by simp), Bytes.value_le_of_lt hVersionLt, if_neg (by omega), hCrcValue,
    Bytes.value_le_of_lt (by omega), readPayload, hTotal]
  dsimp only
  rw [if_neg (by omega), hBody]
  dsimp only [Option.bind_eq_bind, Option.bind_some]
  rw [if_neg (by simp), hDecode]

/-- What the reader accepts behind the header checks. -/
theorem readPayload_eq_ok {storedCrc : UInt32} {payloadLen : Nat}
    (h : format.readPayload bytes storedCrc payloadLen = some (.ok x)) :
    headerSize + payloadLen ≤ bytes.length ∧
      format.crc32 ((bytes.take (headerSize + payloadLen)).drop headerSize) = storedCrc ∧
      format.decode ((bytes.take (headerSize + payloadLen)).drop headerSize) = some x := by
  unfold readPayload at h
  split at h
  · cases h
  · next total hTotal =>
    have hSum : total = headerSize + payloadLen := by
      unfold checkedAdd at hTotal
      split at hTotal
      · exact (Option.some.inj hTotal).symm
      · cases hTotal
    subst hSum
    split at h
    · cases h
    · next hLong =>
      rw [slice_eq (Nat.le_add_right _ _) (Nat.le_of_not_lt hLong)] at h
      dsimp only [Option.bind_eq_bind, Option.bind_some] at h
      split at h
      · cases h
      · next hCrc =>
        split at h
        · cases h
        · next y hDecode =>
          obtain rfl := Except.ok.inj (Option.some.inj h)
          exact ⟨Nat.le_of_not_lt hLong, not_not.mp hCrc, hDecode⟩

theorem payload_length {payloadLen : Nat} (h : headerSize + payloadLen ≤ bytes.length) :
    ((bytes.take (headerSize + payloadLen)).drop headerSize).length = payloadLen := by
  rw [List.length_drop, List.length_take]
  omega

/-- A field of four bytes is a number of 32 bits. -/
theorem value_slice_lt {start stop : Nat} (hWidth : stop = start + 4) (hStop : stop ≤ bytes.length) :
    Bytes.value ((bytes.take stop).drop start) < 2 ^ 32 := by
  have hLt := Bytes.value_lt ((bytes.take stop).drop start)
  have hFour : ((bytes.take stop).drop start).length = 4 := by
    rw [List.length_drop, List.length_take]
    omega
  rw [hFour] at hLt
  exact hLt

/-- What the reader accepts is a frame around a payload. -/
theorem frames_of_read (h : format.fromDiskBytes bytes = some (.ok x)) :
    ∃ version payload rest, format.Frames bytes version payload rest ∧
      format.decode payload = some x := by
  unfold fromDiskBytes at h
  split at h
  · cases h
  · next hLong =>
    have hLength : 18 ≤ bytes.length := Nat.le_of_not_lt hLong
    rw [slice_eq (by omega) (show 6 ≤ bytes.length by omega),
      slice_eq (by omega) (show 10 ≤ bytes.length by omega),
      slice_eq (by omega) (show 14 ≤ bytes.length by omega), slice_eq (by omega) hLength] at h
    dsimp only [Option.bind_eq_bind, Option.bind_some] at h
    split at h
    · cases h
    · next hMagic =>
      split at h
      · cases h
      · next hVersion =>
        obtain ⟨hEnd, hCrc, hDecode⟩ := readPayload_eq_ok h
        refine ⟨Bytes.value ((bytes.take 10).drop 6), _,
          bytes.drop (headerSize + Bytes.value ((bytes.take 18).drop 14)),
          ⟨?_, ?_, ?_, ?_⟩, hDecode⟩
        · have hDigits {start stop : Nat} (hWidth : start + 4 = stop) (hStop : stop ≤ bytes.length) :
              Bytes.le 4 (Bytes.value ((bytes.take stop).drop start)) = (bytes.take stop).drop start := by
            have hFour : ((bytes.take stop).drop start).length = 4 := by
              rw [List.length_drop, List.length_take]
              omega
            have hBack := Bytes.le_value ((bytes.take stop).drop start)
            rwa [hFour] at hBack
          have hPayload := payload_length hEnd
          have hStored : (format.crc32 ((bytes.take (headerSize +
              Bytes.value ((bytes.take 18).drop 14))).drop headerSize)).toNat =
                Bytes.value ((bytes.take 14).drop 10) := by
            rw [hCrc, UInt32.toNat_ofNat']
            exact Nat.mod_eq_of_lt (value_slice_lt (by omega) (by omega))
          have hHead : bytes.take 18 ++ (bytes.take (headerSize +
              Bytes.value ((bytes.take 18).drop 14))).drop headerSize =
                bytes.take (headerSize + Bytes.value ((bytes.take 18).drop 14)) :=
            take_append_slice (Nat.le_add_right headerSize _)
          have hAll := (congrArg (· ++ bytes.drop (headerSize +
            Bytes.value ((bytes.take 18).drop 14))) hHead).trans (List.take_append_drop _ _)
          rw [hStored, hPayload, hDigits rfl (by omega), hDigits rfl (by omega), hDigits rfl hLength,
            ← not_not.mp hMagic, List.drop_zero, take_append_slice (by omega),
            take_append_slice (by omega), take_append_slice (by omega)]
          exact hAll.symm
        · rw [payload_length hEnd]
          exact value_slice_lt (by omega) hLength
        · omega
        · omega

theorem fromDiskBytes_iff :
    format.fromDiskBytes bytes = some (.ok x) ↔
      ∃ version payload rest, format.Frames bytes version payload rest ∧
        format.decode payload = some x :=
  ⟨frames_of_read, fun ⟨_, _, _, hFrames, hDecode⟩ => hFrames.read hDecode⟩

/-- A payload that is not too long is written as a frame of the current version. -/
theorem toDiskBytes_frames (h : (format.encode x).length < 2 ^ 32) :
    ∃ bytes, format.toDiskBytes x = .ok bytes ∧
      bytes.length = headerSize + (format.encode x).length ∧
      ∀ rest, format.Frames (bytes ++ rest) format.version.toNat (format.encode x) rest := by
  refine ⟨_, by rw [toDiskBytes, if_neg (by omega)], ?_, fun rest => ⟨rfl, h, ?_, le_rfl⟩⟩
  · simp only [List.length_append, Bytes.le_length, format.magic_length, headerSize]
  · exact UInt32.le_iff_toNat_le.mp format.readable

/-- Two frames with the same beginning have payloads of the same length. -/
theorem Frames.payload_length_eq {missing payload' rest' : Bytes} {version' : Nat}
    (h : format.Frames bytes version payload rest)
    (h' : format.Frames (bytes ++ missing) version' payload' rest') :
    payload.length = payload'.length := by
  have hEq : format.magic ++ (Bytes.le 4 version ++ (Bytes.le 4 (format.crc32 payload).toNat ++
      (Bytes.le 4 payload.length ++ (payload ++ (rest ++ missing))))) =
      format.magic ++ (Bytes.le 4 version' ++ (Bytes.le 4 (format.crc32 payload').toNat ++
        (Bytes.le 4 payload'.length ++ (payload' ++ rest')))) := by
    have hBoth := h'.eq
    rw [h.eq] at hBoth
    simpa only [List.append_assoc] using hBoth
  have hVersion := (List.append_inj hEq rfl).2
  have hCrc := (List.append_inj hVersion (by simp)).2
  have hLength := (List.append_inj hCrc (by simp)).2
  have hField := (List.append_inj hLength (by simp)).1
  have hValue := congrArg Bytes.value hField
  rwa [Bytes.value_le_of_lt h.length, Bytes.value_le_of_lt h'.length] at hValue

theorem Frames.length_le (h : format.Frames bytes version payload rest) :
    headerSize + payload.length ≤ bytes.length := by
  rw [h.eq]
  simp only [List.length_append, Bytes.le_length, format.magic_length, headerSize]
  omega

/-- A strict prefix of what was written is rejected. -/
theorem strict_prefix_rejected {written : Bytes} (hWritten : format.toDiskBytes x = .ok written)
    (hPrefix : bytes <+: written) (hStrict : bytes ≠ written) :
    ∃ e, format.fromDiskBytes bytes = some (.error e) := by
  have hFits : (format.encode x).length < 2 ^ 32 := by
    by_contra hLong
    rw [toDiskBytes, if_pos (by omega)] at hWritten
    cases hWritten
  obtain ⟨written', hOk, hLength, hFrames⟩ := toDiskBytes_frames hFits
  obtain rfl : written' = written := Except.ok.inj (hOk.symm.trans hWritten)
  obtain ⟨outcome, hOutcome⟩ := Option.isSome_iff_exists.mp (format.fromDiskBytes_isSome bytes)
  cases outcome with
  | error e => exact ⟨e, hOutcome⟩
  | ok y =>
      obtain ⟨missing, rfl⟩ := hPrefix
      obtain ⟨version, payload, rest, hRead, -⟩ := frames_of_read hOutcome
      have hWhole := hFrames []
      rw [List.append_nil] at hWhole
      have hSame := hRead.payload_length_eq hWhole
      have hLe := hRead.length_le
      rw [List.length_append] at hLength
      have hNone : missing = [] := List.eq_nil_of_length_eq_zero (by omega)
      rw [hNone, List.append_nil] at hStrict
      exact absurd rfl hStrict

end
end DiskFormat

/-- The payload of a patch file. -/
inductive Z1PatchFormatV4
  | sparse (entries : List PatchEntry)
  deriving DecidableEq

/-- `postcard` at the payload of a patch file, and `crc32fast::hash`. -/
structure PatchCodec where
  encode : Z1PatchFormatV4 → Bytes
  decode : Bytes → Option Z1PatchFormatV4
  crc32 : Bytes → UInt32
  decode_encode : ∀ patch, (encode patch).length < 2 ^ 32 → decode (encode patch) = some patch

namespace Postcard

/-- `postcard` at a patch: variant index, number of entries, the entries. -/
def patchEntry (pe : PatchEntry) : Bytes := bytes pe.key ++ option pe.value ++ varint pe.txnId

def readPatchEntry (input : Bytes) : Option (PatchEntry × Bytes) := do
  let (key, rest) ← readBytes input
  let (value, rest) ← readOption rest
  let (txnId, rest) ← readVarint 64 rest
  some (⟨key, value, txnId⟩, rest)

def readPatchEntries : Nat → Bytes → Option (List PatchEntry × Bytes)
  | 0, rest => some ([], rest)
  | count + 1, rest => do
      let (pe, rest) ← readPatchEntry rest
      let (more, rest) ← readPatchEntries count rest
      some (pe :: more, rest)

def patch : Z1PatchFormatV4 → Bytes
  | .sparse entries => varint 0 ++ varint entries.length ++ entries.flatMap patchEntry

def readPatch (input : Bytes) : Option Z1PatchFormatV4 := do
  let (tag, rest) ← readVarint 32 input
  if tag ≠ 0 then none
  else
    let (count, rest) ← readVarint 64 rest
    let (entries, _) ← readPatchEntries count rest
    some (.sparse entries)

theorem readPatchEntry_patchEntry {pe : PatchEntry} (h : (patchEntry pe).length < 2 ^ 32) (rest : Bytes) :
    readPatchEntry (patchEntry pe ++ rest) = some (pe, rest) := by
  simp only [patchEntry, List.length_append] at h
  simp [readPatchEntry, patchEntry, List.append_assoc, @readBytes_bytes pe.key (by omega),
    @readOption_option pe.value (by omega), @readVarint_of_length pe.txnId (by omega)]

theorem readPatchEntries_flatMap {entries : List PatchEntry}
    (h : (entries.flatMap patchEntry).length < 2 ^ 32) (rest : Bytes) :
    readPatchEntries entries.length (entries.flatMap patchEntry ++ rest) = some (entries, rest) := by
  induction entries with
  | nil => rfl
  | cons pe more ih =>
      rw [List.flatMap_cons, List.length_append] at h
      simp [readPatchEntries, List.flatMap_cons, List.append_assoc,
        @readPatchEntry_patchEntry pe (by omega), ih (by omega)]

theorem readPatch_patch (p : Z1PatchFormatV4) (h : (patch p).length < 2 ^ 32) :
    readPatch (patch p) = some p := by
  obtain ⟨entries⟩ := p
  simp only [patch, List.length_append] at h
  have hTag := readVarint_varint (by decide) (show 0 < 2 ^ 32 by decide)
  have hEntries := @readPatchEntries_flatMap entries (by omega) []
  rw [List.append_nil] at hEntries
  simp [readPatch, patch, List.append_assoc, hTag, @readVarint_of_length entries.length (by omega),
    hEntries]

def patchCodec : PatchCodec where
  encode := patch
  decode := readPatch
  crc32 := crc32
  decode_encode := readPatch_patch

end Postcard

/-- Magic `DLT004`, version 4. -/
def Z1PatchFormatV4.format (codec : PatchCodec) : DiskFormat Z1PatchFormatV4 where
  magic := [68, 76, 84, 48, 48, 52]
  version := 4
  minReadableVersion := 4
  encode := codec.encode
  decode := codec.decode
  crc32 := codec.crc32
  magic_length := rfl
  readable := by decide
  decode_encode := codec.decode_encode

/-- The reader of patch files accepts exactly the frames of payloads that decode, never
slices out of range, reads back what was written whatever follows it, and rejects every
strict prefix of it. -/
theorem patch_format_exact (codec : PatchCodec) :
    let format := Z1PatchFormatV4.format codec
    (∀ bytes x, format.fromDiskBytes bytes = some (.ok x) ↔
      ∃ version payload rest, format.Frames bytes version payload rest ∧
        codec.decode payload = some x) ∧
    (∀ bytes, (format.fromDiskBytes bytes).isSome = true) ∧
    ∀ x, (codec.encode x).length < 2 ^ 32 → ∃ written, format.toDiskBytes x = .ok written ∧
      (∀ rest, format.fromDiskBytes (written ++ rest) = some (.ok x)) ∧
      ∀ bytes, bytes <+: written → bytes ≠ written →
        ∃ e, format.fromDiskBytes bytes = some (.error e) := by
  intro format
  refine ⟨fun bytes x => @DiskFormat.fromDiskBytes_iff _ format bytes x,
    format.fromDiskBytes_isSome, fun x hFits => ?_⟩
  obtain ⟨written, hOk, -, hFrames⟩ := @DiskFormat.toDiskBytes_frames _ format x hFits
  refine ⟨written, hOk, fun rest => (hFrames rest).read (codec.decode_encode x hFits), ?_⟩
  exact fun bytes hPrefix hStrict => DiskFormat.strict_prefix_rejected hOk hPrefix hStrict

theorem patch_format_exact_one :
    let format := Z1PatchFormatV4.format Postcard.patchCodec
    let patch := Z1PatchFormatV4.sparse [⟨[107], some [1], 1⟩]
    ∃ written, format.toDiskBytes patch = .ok written ∧
      (∀ rest, format.fromDiskBytes (written ++ rest) = some (.ok patch)) ∧
      ∀ bytes, bytes <+: written → bytes ≠ written →
        ∃ e, format.fromDiskBytes bytes = some (.error e) :=
  (patch_format_exact Postcard.patchCodec).2.2 _ (by decide +kernel)

end Z1Kv
